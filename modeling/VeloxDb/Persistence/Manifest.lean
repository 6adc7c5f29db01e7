import VeloxDb.Persistence.Outcomes

/-!
# Reading back what `SAVE` wrote

The manifest is a text of `key=value` lines, and paths are written into it as they are. A path with
a line break or with blanks around it does not come back, and then the manifest does not match.
Where both paths match, the offset is the one that was written (`aofOffset_of_readManifest`).
-/

namespace VeloxDb

open Decimal Util Resp

/-- The manifest with its paths as `write_manifest` writes them. -/
def Manifest.normalised (env : Env) (m : Manifest) : Manifest :=
  { m with
    snapshotPath := env.lexicallyNormal m.snapshotPath
    aofPath := env.lexicallyNormal m.aofPath }

namespace SnapshotStore

/-- A key that a line of the manifest can start with. -/
structure LineKey (key : Bytes) : Prop where
  ne_nil : key ≠ []
  plain : ∀ b ∈ key, isSpace b = false ∧ b ≠ 61 ∧ b ≠ 10
  not_comment : key.head? ≠ some 35

instance (key : Bytes) : Decidable (LineKey key) :=
  decidable_of_iff
    (key ≠ [] ∧ (key.all fun b => !isSpace b && b != 61 && b != 10) = true ∧ key.head? ≠ some 35)
    (by simpa [and_assoc] using ⟨fun h => ⟨h.1, h.2.1, h.2.2⟩, fun h => ⟨h.1, h.2, h.3⟩⟩)

/-- Dropping stops at a byte that stays. -/
theorem dropWhile_append_cons {p : UInt8 → Bool} {x : UInt8} (hx : p x = false) (l rest : Bytes) :
    (l ++ x :: rest).dropWhile p = l.dropWhile p ++ x :: rest := by
  induction l with
  | nil => simp [hx]
  | cons b t ih =>
    by_cases hb : p b = true
    · simp [hb, ih]
    · simp [hb]

/-- The value is only trimmed on the right before the line is taken apart. -/
theorem trim_line {key : Bytes} (hkey : LineKey key) (value : Bytes) :
    trim (key ++ 61 :: value) = key ++ 61 :: (value.reverse.dropWhile isSpace).reverse := by
  obtain ⟨b, t, rfl⟩ := List.exists_cons_of_ne_nil hkey.ne_nil
  have hb : isSpace b = false := (hkey.plain b (by simp)).1
  have hrev : (b :: t ++ 61 :: value).reverse = value.reverse ++ 61 :: (b :: t).reverse := by simp
  rw [trim, List.cons_append, List.dropWhile_cons_of_neg (by simp [hb]), ← List.cons_append, hrev,
    dropWhile_append_cons (by decide)]
  simp

/-- A line is read back, its value trimmed. -/
theorem parseManifestLine_pair {key : Bytes} (hkey : LineKey key) (value : Bytes) :
    parseManifestLine (key ++ 61 :: value) = some (key, trim value) := by
  have hne : ∀ b ∈ key, (b != 61) = true := fun b hb => by simpa using (hkey.plain b hb).2.1
  have hhead : (key ++ 61 :: (value.reverse.dropWhile isSpace).reverse).head? ≠ some 35 := by
    rw [List.head?_append_of_ne_nil _ hkey.ne_nil]
    exact hkey.not_comment
  have hcond : ¬ (key ++ 61 :: (value.reverse.dropWhile isSpace).reverse = [] ∨
      (key ++ 61 :: (value.reverse.dropWhile isSpace).reverse).head? = some 35 ∨
      61 ∉ key ++ 61 :: (value.reverse.dropWhile isSpace).reverse) := by
    rintro (h | h | h)
    · simp at h
    · exact hhead h
    · simp at h
  simp only [parseManifestLine, trim_line hkey]
  rw [if_neg hcond, List.takeWhile_append_of_pos hne, List.dropWhile_append_of_pos hne,
    List.takeWhile_cons_of_neg (by simp), List.dropWhile_cons_of_neg (by simp), List.append_nil,
    trim_eq_self fun b hb => (hkey.plain b hb).1, List.drop_one, List.tail_cons, trim_rtrim]

/-- A text whose first line is `key=value`. -/
def line (key value rest : Bytes) : Bytes := key ++ 61 :: (value ++ 10 :: rest)

/-- A text that a line can hold: without a line break, and with no blank at its ends. -/
def OneLine (value : Bytes) : Prop := 10 ∉ value ∧ NoOuterBlanks value

instance (value : Bytes) : Decidable (OneLine value) := inferInstanceAs (Decidable (_ ∧ _))

/-- A trimmed value without a line feed is one line. -/
theorem oneLine_trim {value : Bytes} (h : 10 ∉ value) : OneLine (trim value) :=
  ⟨fun hmem => h (mem_of_mem_trim hmem), noOuterBlanks_trim value⟩

/-- A value without blanks is a line. -/
theorem oneLine_of_plain {value : Bytes} (h : ∀ b ∈ value, isSpace b = false) : OneLine value := by
  refine ⟨fun hmem => ?_, trim_eq_self_iff.mp (trim_eq_self h)⟩
  have hspace := h 10 hmem
  cases hspace

/-- The first line of a text gives a line, whatever was written; and where the value was one, it is
the value and the rest of the text follows. -/
theorem parseManifestLines_line {key : Bytes} (hkey : LineKey key) (value rest : Bytes) :
    ∃ value' tail, parseManifestLines (line key value rest) = (key, value') :: tail ∧
      OneLine value' ∧ (10 ∉ value → value' = trim value ∧ tail = parseManifestLines rest) := by
  -- the line ends at the first line break, in the value or behind it
  have hline : ∀ first rest : Bytes, 10 ∉ first →
      parseManifestLines (line key first rest)
        = (key, trim first) :: parseManifestLines rest := by
    intro first rest hfirst
    have hsplit : (line key first rest).splitOn 10
        = (key ++ 61 :: first) :: rest.splitOn 10 := by
      have happ : line key first rest = (key ++ 61 :: first) ++ 10 :: rest := by simp [line]
      rw [happ, List.splitOn, List.splitOnP_append_cons_of_forall_mem]
      · rfl
      · intro b hb
        simp only [List.mem_append, List.mem_cons] at hb
        rcases hb with hb | rfl | hb
        · simpa using (hkey.plain b hb).2.2
        · decide
        · simpa using fun heq : b = 10 => hfirst (heq ▸ hb)
      · decide
    rw [parseManifestLines, hsplit, List.filterMap_cons_some (parseManifestLine_pair hkey first)]
    rfl
  by_cases hvalue : 10 ∈ value
  · obtain ⟨first, more, rfl, hfirst⟩ := List.eq_append_cons_of_mem hvalue
    have happ : line key (first ++ 10 :: more) rest = line key first (more ++ 10 :: rest) := by
      simp [line]
    exact ⟨_, _, happ ▸ hline first _ hfirst, oneLine_trim hfirst, fun h => absurd hvalue h⟩
  · exact ⟨_, _, hline value rest hvalue, oneLine_trim hvalue, fun _ => ⟨rfl, rfl⟩⟩

/-- A value that is found is one line. -/
theorem oneLine_of_lookup_line {key value rest value' : Bytes} (hkey : LineKey key)
    (h : (parseManifestLines (line key value rest)).lookup key = some value') : OneLine value' := by
  obtain ⟨value'', tail, heq, hone, -⟩ := parseManifestLines_line hkey value rest
  simp only [heq, List.lookup_cons_self, Option.some.injEq] at h
  exact h ▸ hone

/-- A value that is one line is found under its name. -/
theorem lookup_line_self {key value : Bytes} (hkey : LineKey key) (hvalue : OneLine value)
    (rest : Bytes) : (parseManifestLines (line key value rest)).lookup key = some value := by
  obtain ⟨value', tail, heq, -, hnext⟩ := parseManifestLines_line hkey value rest
  rw [heq, List.lookup_cons_self, (hnext hvalue.1).1, trim_eq_self_iff.mpr hvalue.2]

/-- A line says nothing about another name. -/
theorem lookup_line_of_ne {key other : Bytes} (hkey : LineKey key) {value : Bytes}
    (hvalue : 10 ∉ value) (hne : other ≠ key) (rest : Bytes) :
    (parseManifestLines (line key value rest)).lookup other
      = (parseManifestLines rest).lookup other := by
  obtain ⟨value', tail, heq, -, hnext⟩ := parseManifestLines_line hkey value rest
  have hbeq : (other == key) = false := beq_eq_false_iff_ne.mpr hne
  rw [heq, (hnext hvalue).2, List.lookup_cons, hbeq]

/-- A manifest is only read from a safe path. -/
theorem safe_of_readManifest {store : SnapshotStore} {file : Option Bytes} {m : Manifest}
    (h : store.readManifest file = some m) : pathIsSafe store.manifestPath = true := by
  by_contra hsafe
  simp [readManifest, hsafe] at h

/-- What `read_manifest` takes from the lines. -/
theorem lookup_of_readManifest {store : SnapshotStore} {content : Bytes} {m : Manifest}
    (h : store.readManifest (some content) = some m) :
    (parseManifestLines content).lookup (ascii "snapshot_path") = some m.snapshotPath ∧
      (parseManifestLines content).lookup (ascii "aof_path") = some m.aofPath ∧
      ∃ offset, (parseManifestLines content).lookup (ascii "aof_offset") = some offset ∧
        parseU64 offset = some m.aofOffset := by
  simp only [readManifest, safe_of_readManifest h, Bool.not_true, Bool.false_eq_true, if_false,
    Option.bind_eq_bind, Option.bind_some, Option.bind_eq_some_iff, Option.pure_def] at h
  obtain ⟨version, -, snapshotPath, hsnapshot, aofPath, haof, offset, hoffset, created, -, h⟩ := h
  by_cases hversion : version = ascii "1"
  · simp only [hversion, ne_eq, not_true_eq_false, if_false, Option.bind_eq_some_iff] at h
    obtain ⟨parsed, hparsed, ms, -, h⟩ := h
    cases h
    exact ⟨hsnapshot, haof, offset, hoffset, hparsed⟩
  · simp [hversion] at h

/-- A text with a line for each of these fields. -/
def lines (fields : List (Bytes × Bytes)) : Bytes :=
  fields.foldr (fun field rest => line field.1 field.2 rest) []

/-- A field is looked up in its own line, when the values in front of it have no line break. -/
theorem lookup_lines {front rest : List (Bytes × Bytes)} {field : Bytes × Bytes}
    (hkeys : ∀ f ∈ front, LineKey f.1) (hne : ∀ f ∈ front, field.1 ≠ f.1)
    (hvalues : ∀ f ∈ front, 10 ∉ f.2) :
    (parseManifestLines (lines (front ++ field :: rest))).lookup field.1
      = (parseManifestLines (line field.1 field.2 (lines rest))).lookup field.1 := by
  induction front with
  | nil => rfl
  | cons f front ih =>
    simp only [List.forall_mem_cons] at hkeys hne hvalues
    have hcons : lines (f :: front ++ field :: rest) = line f.1 f.2 (lines (front ++ field :: rest)) :=
      rfl
    rw [hcons, lookup_line_of_ne hkeys.1 hvalues.1 hne.1, ih hkeys.2 hne.2 hvalues.2]

/-- The fields that `write_manifest` writes. -/
def manifestFields (env : Env) (m : Manifest) : List (Bytes × Bytes) :=
  [(ascii "format_version", ascii "1"), (ascii "snapshot_path", env.lexicallyNormal m.snapshotPath),
    (ascii "aof_path", env.lexicallyNormal m.aofPath), (ascii "aof_offset", print m.aofOffset),
    (ascii "created_unix_ms", printInt m.createdUnixMs)]

/-- The text is the lines of the fields. -/
theorem manifestText_eq (env : Env) (m : Manifest) :
    manifestText env m = lines (manifestFields env m) := by
  simp [manifestText, lines, manifestFields, line, ascii]

/-- The keys of a manifest are keys of lines, and no two of them are the same. -/
theorem lineKeys_manifestFields (env : Env) (m : Manifest) :
    (∀ f ∈ manifestFields env m, LineKey f.1) ∧ ((manifestFields env m).map Prod.fst).Nodup := by
  have hkeys : (∀ key ∈ ["format_version", "snapshot_path", "aof_path", "aof_offset",
        "created_unix_ms"].map ascii, LineKey key) ∧
      (["format_version", "snapshot_path", "aof_path", "aof_offset",
        "created_unix_ms"].map ascii).Nodup := by
    decide +kernel
  refine ⟨fun f hf => hkeys.1 f.1 ?_, hkeys.2⟩
  exact List.mem_map_of_mem (f := Prod.fst) hf

/-- A field of a manifest is looked up in its own line, when the values in front of it have no line
break. -/
theorem lookup_manifestText {env : Env} {m : Manifest} (front : List (Bytes × Bytes))
    (field : Bytes × Bytes) {rest : List (Bytes × Bytes)} (hfields : manifestFields env m = front ++ field :: rest)
    (hvalues : ∀ f ∈ front, 10 ∉ f.2) :
    (parseManifestLines (manifestText env m)).lookup field.1
      = (parseManifestLines (line field.1 field.2 (lines rest))).lookup field.1 := by
  obtain ⟨hkeys, hnodup⟩ := lineKeys_manifestFields env m
  rw [hfields] at hkeys hnodup
  rw [manifestText_eq, hfields]
  refine lookup_lines (fun f hf => hkeys f (List.mem_append_left _ hf)) (fun f hf heq => ?_) hvalues
  rw [List.map_append, List.map_cons] at hnodup
  exact List.disjoint_of_nodup_append hnodup (List.mem_map_of_mem (f := Prod.fst) hf)
    (heq ▸ List.mem_cons_self)

/-- A path that came back is a line, so that the lines behind it are read as they were written. -/
theorem oneLine_of_readManifest {env : Env} {store : SnapshotStore} {written m : Manifest}
    (h : store.readManifest (some (manifestText env written)) = some m)
    (hsnapshot : m.snapshotPath = env.lexicallyNormal written.snapshotPath)
    (haof : m.aofPath = env.lexicallyNormal written.aofPath) :
    OneLine (env.lexicallyNormal written.snapshotPath) ∧
      OneLine (env.lexicallyNormal written.aofPath) := by
  obtain ⟨hkeys, -⟩ := lineKeys_manifestFields env written
  simp only [manifestFields, List.forall_mem_cons] at hkeys
  obtain ⟨-, hkeyS, hkeyA, -⟩ := hkeys
  obtain ⟨hlookupS, hlookupA, -⟩ := lookup_of_readManifest h
  have honeS : OneLine (env.lexicallyNormal written.snapshotPath) := by
    rw [lookup_manifestText [_] (ascii "snapshot_path", _) rfl (by simp; decide +kernel)] at hlookupS
    exact hsnapshot ▸ oneLine_of_lookup_line hkeyS hlookupS
  refine ⟨honeS, ?_⟩
  rw [lookup_manifestText [_, _] (ascii "aof_path", _) rfl
    (by simp; exact ⟨by decide +kernel, honeS.1⟩)] at hlookupA
  exact haof ▸ oneLine_of_lookup_line hkeyA hlookupA

section Lines

variable {env : Env} {written : Manifest}
  (hsnapshot : OneLine (env.lexicallyNormal written.snapshotPath))
  (haof : OneLine (env.lexicallyNormal written.aofPath))

include hsnapshot haof

/-- **Every field comes back** where the paths are lines. -/
theorem lookup_field_manifestText : ∀ field ∈ manifestFields env written,
    (parseManifestLines (manifestText env written)).lookup field.1 = some field.2 := by
  have hone : ∀ field ∈ manifestFields env written, OneLine field.2 := by
    simp only [manifestFields, List.forall_mem_cons]
    exact ⟨by decide +kernel, hsnapshot, haof, oneLine_of_plain (print_not_isSpace _),
      oneLine_of_plain (printInt_not_isSpace _), nofun⟩
  intro field hfield
  obtain ⟨front, rest, hfields⟩ := List.append_of_mem hfield
  rw [lookup_manifestText front field hfields fun f hf => (hone f ?_).1,
    lookup_line_self ((lineKeys_manifestFields env written).1 field hfield) (hone field hfield)]
  exact hfields ▸ List.mem_append_left _ hf

/-- Paths that are lines come back, normalised, and so do the numbers. -/
theorem readManifest_manifestText {store : SnapshotStore}
    (hsafe : pathIsSafe store.manifestPath = true) (hoffset : written.aofOffset ≤ uint64Max)
    (hcreated : InI64 written.createdUnixMs) :
    store.readManifest (some (manifestText env written)) = some (written.normalised env) := by
  have hlookup := lookup_field_manifestText hsnapshot haof
  simp only [manifestFields, List.forall_mem_cons] at hlookup
  obtain ⟨hversion, hlookupS, hlookupA, hlookupO, hlookupC, -⟩ := hlookup
  simp only [readManifest, hsafe, Bool.not_true, Bool.false_eq_true, if_false, Option.bind_eq_bind,
    Option.bind_some, hversion, hlookupS, hlookupA, hlookupO, hlookupC, ne_eq, not_true_eq_false,
    parseU64_print, if_pos hoffset, parseI64_printInt hcreated, Option.pure_def, Manifest.normalised]

end Lines

/-- **The offset comes back** from a manifest whose paths match. -/
theorem aofOffset_of_readManifest {env : Env} {store : SnapshotStore} {written m : Manifest}
    (h : store.readManifest (some (manifestText env written)) = some m)
    (hsnapshot : m.snapshotPath = env.lexicallyNormal written.snapshotPath)
    (haof : m.aofPath = env.lexicallyNormal written.aofPath) :
    m.aofOffset = written.aofOffset := by
  obtain ⟨honeS, honeA⟩ := oneLine_of_readManifest h hsnapshot haof
  obtain ⟨-, -, offset, hlookup, hparse⟩ := lookup_of_readManifest h
  have hlookup' := lookup_field_manifestText honeS honeA (ascii "aof_offset", print written.aofOffset)
    (by simp [manifestFields])
  obtain rfl : print written.aofOffset = offset := Option.some.inj (hlookup'.symm.trans hlookup)
  rw [parseU64_print] at hparse
  split_ifs at hparse
  exact (Option.some.inj hparse).symm

/-! ## From `write_manifest` to `manifest_matches` -/

/-- A manifest that was written: its path was safe, and the file holds its lines. -/
theorem writeManifest_ok {env : Env} {store : SnapshotStore} {written : Manifest} {status : Status}
    {w w' : World FileName} (h : writeManifest env store written w = .ok status w')
    (hok : status.isOk = true) :
    pathIsSafe store.manifestPath = true ∧
      w'.fs.read store.manifestFile = some (manifestText env written) := by
  constructor
  · by_contra hsafe
    rw [Bool.not_eq_true] at hsafe
    simp only [writeManifest, hsafe, Bool.not_false, if_true] at h
    cases h
    cases hok
  · have hspec : FileProgram.Spec (writeManifest env store written) w _ _ := spec_writeManifest written
    rw [FileProgram.Spec, h] at hspec
    rcases hspec.2 with ⟨-, -, hread⟩ | ⟨hfail, -⟩
    · exact hread
    · rw [hok] at hfail
      cases hfail

/-- **What a manifest keeps.** A manifest that was written is read back with its normalised paths,
its offset and its time, and then matches for the same paths, if and only if both normalised paths
are lines. -/
theorem written_manifest_matches_iff {env : Env} {store : SnapshotStore} {written : Manifest}
    (hoffset : written.aofOffset ≤ uint64Max) (hcreated : InI64 written.createdUnixMs)
    {status : Status} {w w' : World FileName}
    (hwrite : writeManifest env store written w = .ok status w') (hok : status.isOk = true) :
    (store.readManifest (w'.fs.read store.manifestFile) = some (written.normalised env) ∧
        ∀ aofSize, store.path = written.snapshotPath → written.aofOffset ≤ aofSize →
          manifestMatches env store (written.normalised env) written.aofPath aofSize true = true) ↔
      OneLine (env.lexicallyNormal written.snapshotPath) ∧
        OneLine (env.lexicallyNormal written.aofPath) := by
  obtain ⟨hsafe, hread⟩ := writeManifest_ok hwrite hok
  rw [hread]
  constructor
  · rintro ⟨hm, -⟩
    exact oneLine_of_readManifest hm rfl rfl
  · rintro ⟨hsnapshot, haof⟩
    refine ⟨readManifest_manifestText hsnapshot haof hsafe hoffset hcreated, ?_⟩
    intro aofSize hpath hsize
    simp [manifestMatches, Manifest.normalised, hpath, hsize]

/-- A machine on which every path is normal. -/
def normalEnv : Env :=
  { config := {}, hash := fun _ => 0, lexicallyNormal := id, parentPath := fun _ => [], pid := 1,
    apart := pathsApart_default }

/-- The manifest of a snapshot of this name and a log of seven bytes, and its store. -/
def sevenBytes (snapshotPath : String) : SnapshotStore × Manifest :=
  (.new (ascii snapshotPath) {} (ascii "manifest"), ⟨ascii snapshotPath, ascii "log", 7, 0⟩)

theorem plain_path_matches :
    ∃ w', writeManifest normalEnv (sevenBytes "dump").1 (sevenBytes "dump").2 ⟨.empty, []⟩
        = .ok .ok w' ∧
      ((sevenBytes "dump").1.readManifest (w'.fs.read (sevenBytes "dump").1.manifestFile)
          = some ((sevenBytes "dump").2.normalised normalEnv) ∧
        ∀ aofSize, (sevenBytes "dump").1.path = (sevenBytes "dump").2.snapshotPath →
          (sevenBytes "dump").2.aofOffset ≤ aofSize →
          manifestMatches normalEnv (sevenBytes "dump").1 ((sevenBytes "dump").2.normalised normalEnv)
            (sevenBytes "dump").2.aofPath aofSize true = true) := by
  obtain ⟨w', hwrite⟩ : ∃ w', writeManifest normalEnv (sevenBytes "dump").1 (sevenBytes "dump").2
      ⟨.empty, []⟩ = .ok .ok w' := ⟨_, rfl⟩
  refine ⟨w', hwrite, ?_⟩
  exact (written_manifest_matches_iff (by decide) (by decide) hwrite rfl).mpr (by decide +kernel)

/-- A snapshot whose name begins with a blank: the manifest is written, but what is read back names
another file, and does not match. -/
theorem blank_path_does_not_match :
    pathIsSafe (sevenBytes " dump").1.path = true ∧
      ∃ w', writeManifest normalEnv (sevenBytes " dump").1 (sevenBytes " dump").2 ⟨.empty, []⟩
          = .ok .ok w' ∧
        (sevenBytes " dump").1.readManifest (w'.fs.read (sevenBytes " dump").1.manifestFile)
          = some (sevenBytes "dump").2 ∧
        manifestMatches normalEnv (sevenBytes " dump").1 (sevenBytes "dump").2
          (sevenBytes " dump").2.aofPath 7 true = false :=
  ⟨by decide +kernel, _, rfl, by decide +kernel⟩

end SnapshotStore

end VeloxDb
