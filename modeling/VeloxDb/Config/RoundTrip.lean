import VeloxDb.Config.Layers

/-!
# A file for every configuration

Every configuration that `load` can produce can be written as a file and is read back from it, as
long as its texts have no quotes and line breaks in them and no blanks at their ends. A value is put
between quotes, which `load_file` takes off; `apply_kv` then looks for quotes once more and finds
none. A hash between quotes starts no comment.
-/

namespace VeloxDb.ConfigLoader

open Decimal Util Setting

/-- A text that can stand between quotes. -/
def Quotable (t : Bytes) : Prop := NoOuterBlanks t ∧ 34 ∉ t ∧ 10 ∉ t

instance (t : Bytes) : Decidable (Quotable t) := inferInstanceAs (Decidable (_ ∧ _))

/-- A value without its quotes. -/
def plainValue : SettingValue → Bytes
  | .number n => print n
  | .flag b => if b then ascii "true" else ascii "false"
  | .text t => t

/-- A value as a line of the file has it, a text in quotes. -/
def printValue : SettingValue → Bytes
  | .text t => 34 :: (t ++ [34])
  | x => plainValue x

/-- The line that assigns a value. -/
def settingLine (s : Setting) (x : SettingValue) : Bytes := s.key ++ ascii " = " ++ printValue x

/-- The file, with one line for each key. -/
def configText (c : LoadedConfig) : Bytes :=
  Setting.all.flatMap fun s => settingLine s (valueIn c s) ++ [10]

/-- What a configuration must be like. -/
structure Writable (c : LoadedConfig) : Prop where
  admits : ∀ s, Admits s (valueIn c s)
  quotable : ∀ s t, valueIn c s = .text t → Quotable t

/-! ## Keys -/

/-- Every setting is listed. -/
theorem mem_all (s : Setting) : s ∈ Setting.all := by
  cases s <;> decide

/-- A setting is found under its name. -/
theorem ofKey_key (s : Setting) : ofKey s.key = some s := by
  have hall : ∀ s ∈ Setting.all, ofKey s.key = some s := by decide +kernel
  exact hall s (mem_all s)

/-- The bytes of a key. -/
def KeyByte (b : UInt8) : Prop := isSpace b = false ∧ b ≠ 61 ∧ b ≠ 34 ∧ b ≠ 35 ∧ b ≠ 10 ∧ b ≠ 91

instance (b : UInt8) : Decidable (KeyByte b) := inferInstanceAs (Decidable (_ ∧ _))

/-- A name is not empty. -/
theorem key_ne_nil (s : Setting) : s.key ≠ [] := by
  have hall : ∀ s ∈ Setting.all, s.key ≠ [] := by decide +kernel
  exact hall s (mem_all s)

/-- A name has none of the bytes that mean something in a line. -/
theorem keyByte_of_mem {s : Setting} {b : UInt8} (hb : b ∈ s.key) : KeyByte b := by
  have hall : (Setting.all.all fun s => s.key.all fun b => decide (KeyByte b)) = true := by
    decide +kernel
  have hkey := List.all_eq_true.mp hall s (mem_all s)
  exact of_decide_eq_true (List.all_eq_true.mp hkey b hb)

/-! ## Lines -/

/-- What has neither a quote nor a `#` is left alone. -/
theorem removeCommentFrom_plain {l : Bytes} (h : ∀ b ∈ l, b ≠ 34 ∧ b ≠ 35) (rest : Bytes) :
    removeCommentFrom false (l ++ rest) = l ++ removeCommentFrom false rest := by
  induction l with
  | nil => rfl
  | cons b l ih =>
    obtain ⟨hquote, hhash⟩ := h b List.mem_cons_self
    rw [List.cons_append, removeCommentFrom, if_neg hquote]
    simp only [hhash, decide_false, Bool.and_false, Bool.false_eq_true, if_false]
    rw [ih fun b hb => h b (List.mem_cons_of_mem _ hb), List.cons_append]

/-- Between quotes nothing is a comment. -/
theorem removeCommentFrom_quoted {t : Bytes} (h : 34 ∉ t) (rest : Bytes) :
    removeCommentFrom true (t ++ 34 :: rest) = t ++ 34 :: removeCommentFrom false rest := by
  induction t with
  | nil => rfl
  | cons b t ih =>
    have hquote : b ≠ 34 := fun heq => h (heq ▸ List.mem_cons_self)
    rw [List.cons_append, removeCommentFrom, if_neg hquote]
    simp only [Bool.not_true, Bool.false_and, Bool.false_eq_true, if_false]
    rw [ih fun hmem => h (List.mem_cons_of_mem _ hmem), List.cons_append]

/-- The bytes of a number or of a flag. -/
theorem plain_of_mem {x : SettingValue} {b : UInt8} (hx : ∀ t, x ≠ .text t) (hb : b ∈ plainValue x) :
    isSpace b = false ∧ b ≠ 34 ∧ b ≠ 35 ∧ b ≠ 10 := by
  cases x with
  | text t => exact absurd rfl (hx t)
  | number n =>
    have hdigit := print_isDigit n b hb
    refine ⟨print_not_isSpace n b hb, ?_, ?_, ?_⟩ <;> rintro rfl <;> cases hdigit
  | flag f =>
    have hall : ∀ f : Bool, ∀ b ∈ plainValue (.flag f),
        isSpace b = false ∧ b ≠ 34 ∧ b ≠ 35 ∧ b ≠ 10 := by decide +kernel
    exact hall f b hb

/-- A value as it can be printed. -/
def Printable : SettingValue → Prop
  | .text t => Quotable t
  | _ => True

/-- A printed line has no comment. -/
theorem removeComment_settingLine (s : Setting) {x : SettingValue} (hx : Printable x) :
    removeComment (settingLine s x) = settingLine s x := by
  have hkey : ∀ b ∈ s.key ++ ascii " = ", b ≠ 34 ∧ b ≠ 35 := by
    intro b hb
    rcases List.mem_append.mp hb with hb | hb
    · exact ⟨(keyByte_of_mem hb).2.2.1, (keyByte_of_mem hb).2.2.2.1⟩
    · have hall : ∀ b ∈ ascii " = ", b ≠ 34 ∧ b ≠ 35 := by decide +kernel
      exact hall b hb
  rw [removeComment, settingLine, removeCommentFrom_plain hkey]
  congr 1
  cases x with
  | text t =>
    show removeCommentFrom false (34 :: (t ++ [34])) = _
    rw [removeCommentFrom]
    simp only [if_true, Bool.not_false, Bool.not_true, Bool.false_and, Bool.false_eq_true, if_false]
    rw [removeCommentFrom_quoted hx.2.1]
    rfl
  | number n =>
    have hplain := removeCommentFrom_plain (l := print n)
      (fun b hb => (plain_of_mem (x := .number n) (fun _ => by simp) hb).2.imp_right And.left) []
    rw [List.append_nil, removeCommentFrom, List.append_nil] at hplain
    exact hplain
  | flag f => cases f <;> decide

/-- A printed value is not empty. -/
theorem printValue_ne_nil (x : SettingValue) : printValue x ≠ [] := by
  cases x with
  | text t => exact List.cons_ne_nil _ _
  | number n => exact print_ne_nil n
  | flag f => cases f <;> decide

/-- A printed value has no blank at its ends. -/
theorem noOuterBlanks_printValue (x : SettingValue) : NoOuterBlanks (printValue x) := by
  cases x with
  | text t =>
    refine ⟨fun b hb => ?_, fun b hb => ?_⟩
    · cases hb
      rfl
    · rw [printValue, ← List.cons_append, List.getLast?_concat] at hb
      cases hb
      rfl
  | number n => exact trim_eq_self_iff.mp (trim_eq_self (print_not_isSpace n))
  | flag f => cases f <;> decide +kernel

/-- A printed line has no blank at its ends. -/
theorem noOuterBlanks_settingLine (s : Setting) (x : SettingValue) :
    NoOuterBlanks (settingLine s x) := by
  refine ⟨fun b hb => ?_, fun b hb => ?_⟩
  · rw [settingLine, List.append_assoc, List.head?_append_of_ne_nil _ (key_ne_nil s)] at hb
    exact (keyByte_of_mem (List.mem_of_head? hb)).1
  · rw [settingLine, List.getLast?_append_of_ne_nil _ (printValue_ne_nil x)] at hb
    exact (noOuterBlanks_printValue x).2 b hb

/-- The quotes are taken off. -/
theorem stripQuotes_printValue {x : SettingValue} (hx : Printable x) :
    stripQuotes (32 :: printValue x) = plainValue x := by
  have htrim : trim (32 :: printValue x) = printValue x := by
    have hblank : isSpace 32 = true := rfl
    rw [trim, List.dropWhile_cons_of_pos hblank]
    exact trim_eq_self_iff.mpr (noOuterBlanks_printValue x)
  rw [stripQuotes, htrim]
  cases x with
  | text t =>
    have hlast : (printValue (.text t)).getLast? = some 34 := by
      rw [printValue, ← List.cons_append, List.getLast?_concat]
    have hlen : (printValue (.text t)).length = t.length + 2 := by simp [printValue]
    rw [if_pos ⟨by omega, rfl, hlast⟩, hlen]
    simp [printValue, plainValue]
  | number n =>
    rw [if_neg]
    · rfl
    · rintro ⟨-, hhead, -⟩
      exact (plain_of_mem (x := .number n) (fun _ => by simp) (List.mem_of_head? hhead)).2.1 rfl
  | flag f => cases f <;> decide

/-- There are none left. -/
theorem stripQuotes_plainValue {x : SettingValue} (hx : Printable x) :
    stripQuotes (plainValue x) = plainValue x := by
  have hquote : 34 ∉ plainValue x := by
    cases x with
    | text t => exact hx.2.1
    | number n => exact fun hb => (plain_of_mem (x := .number n) (fun _ => by simp) hb).2.1 rfl
    | flag f => exact fun hb => (plain_of_mem (x := .flag f) (fun _ => by simp) hb).2.1 rfl
  have hblanks : NoOuterBlanks (plainValue x) := by
    cases x with
    | text t => exact hx.1
    | number n => exact noOuterBlanks_printValue (.number n)
    | flag f => exact noOuterBlanks_printValue (.flag f)
  rw [stripQuotes, trim_eq_self_iff.mpr hblanks, if_neg]
  rintro ⟨-, hhead, -⟩
  exact hquote (List.mem_of_head? hhead)

/-- **A line that was written is read** as its assignment. -/
theorem readLine_settingLine (s : Setting) {x : SettingValue} (hx : Printable x) :
    readLine (settingLine s x) = .assignment s.key (plainValue x) := by
  have hhead : ∀ rest : Bytes, (s.key ++ rest).head? ≠ some 91 := by
    intro rest hbracket
    rw [List.head?_append_of_ne_nil _ (key_ne_nil s)] at hbracket
    exact (keyByte_of_mem (List.mem_of_head? hbracket)).2.2.2.2.2 rfl
  have hline : settingLine s x = (s.key ++ [32]) ++ 61 :: 32 :: printValue x := by
    simp [settingLine, show ascii " = " = [32, 61, 32] by decide]
  have hne : ∀ b ∈ s.key ++ [32], decide (b ≠ 61) = true := by
    intro b hb
    rcases List.mem_append.mp hb with hb | hb
    · exact decide_eq_true (keyByte_of_mem hb).2.1
    · rw [List.mem_singleton.mp hb]
      rfl
  have hspan : (settingLine s x).span (· ≠ 61) = (s.key ++ [32], 61 :: 32 :: printValue x) := by
    rw [hline, List.span_eq_takeWhile_dropWhile, List.takeWhile_append_of_pos hne,
      List.dropWhile_append_of_pos hne]
    simp
  have hkey : trim (s.key ++ [32]) = s.key := by
    rw [trim_concat_of_isSpace rfl]
    exact trim_eq_self fun b hb => (keyByte_of_mem hb).1
  have hempty : settingLine s x ≠ [] := by
    rw [hline]
    simp
  rw [readLine, removeComment_settingLine s hx, trim_eq_self_iff.mpr (noOuterBlanks_settingLine s x)]
  simp only [hspan]
  rw [if_neg hempty, if_neg, if_neg (List.cons_ne_nil _ _), hkey]
  · simp only [List.drop_succ_cons, List.drop_zero, stripQuotes_printValue hx]
  · rintro ⟨hbracket, -⟩
    rw [settingLine, List.append_assoc] at hbracket
    exact hhead _ hbracket

/-- A line of the file has no line break. -/
theorem newline_notMem_settingLine (s : Setting) {x : SettingValue} (hx : Printable x) :
    10 ∉ settingLine s x := by
  intro hmem
  rcases List.mem_append.mp hmem with hmem | hmem
  · rcases List.mem_append.mp hmem with hmem | hmem
    · exact (keyByte_of_mem hmem).2.2.2.2.1 rfl
    · revert hmem
      decide
  · cases x with
    | text t =>
      rcases List.mem_cons.mp hmem with heq | hmem
      · cases heq
      · rcases List.mem_append.mp hmem with hmem | hmem
        · exact hx.2.2 hmem
        · cases List.mem_singleton.mp hmem
    | number n => exact (plain_of_mem (x := .number n) (fun _ => by simp) hmem).2.2.2 rfl
    | flag f => exact (plain_of_mem (x := .flag f) (fun _ => by simp) hmem).2.2.2 rfl

/-- The lines of a text that is made of lines. -/
theorem lines_flatMap {ls : List Bytes} (h : ∀ l ∈ ls, 10 ∉ l) : lines (ls.flatMap (· ++ [10])) = ls := by
  have hsplit : (ls.flatMap (· ++ [10])).splitOn 10 = ls ++ [[]] := by
    induction ls with
    | nil => rfl
    | cons l ls ih =>
      have happ : (l :: ls).flatMap (· ++ [10]) = l ++ 10 :: ls.flatMap (· ++ [10]) := by simp
      rw [happ, List.splitOn, List.splitOnP_append_cons_of_forall_mem]
      · show l :: (ls.flatMap (· ++ [10])).splitOn 10 = _
        rw [ih fun l' hl' => h l' (List.mem_cons_of_mem _ hl')]
        rfl
      · intro b hb
        simpa using fun heq : b = 10 => h l List.mem_cons_self (heq ▸ hb)
      · decide
  rw [lines, hsplit, List.getLast?_concat]
  simp

/-! ## Values -/

/-- A printed number is read back. -/
theorem parseU64_print_of_lt {n : ℕ} (h : n < 2 ^ 64) : parseU64 (print n) = some n := by
  rw [parseU64_print, if_pos]
  simp only [uint64Max]
  omega

/-- A printed size is read back, in bytes. -/
theorem parseByteSize_print {n : ℕ} (h : n < 2 ^ 64) : parseByteSize (print n) = some n := by
  have hlower : toLowerAscii (print n) = print n := by
    have hbyte : ∀ b ∈ print n, toLower b = b := by
      intro b hb
      have hdigit := print_isDigit n b hb
      simp only [isDigit, Bool.and_eq_true, decide_eq_true_eq] at hdigit
      rw [toLower, if_neg]
      simp only [Bool.and_eq_true, decide_eq_true_eq]
      omega
    rw [toLowerAscii, List.map_congr_left hbyte, List.map_id']
  have hsuffix : stripSuffix (print n) = (print n, 1) := by
    rw [stripSuffix, List.find?_eq_none.mpr]
    intro p hp hsuffix
    -- every suffix has a letter in it
    have hletter : ∀ p ∈ byteSuffixes, ∃ b ∈ p.1, isDigit b = false := by decide
    obtain ⟨b, hb, hnot⟩ := hletter p hp
    have hdigit := print_isDigit n b ((List.isSuffixOf_iff_suffix.mp hsuffix).subset hb)
    rw [hnot] at hdigit
    cases hdigit
  rw [parseByteSize, trim_eq_self (print_not_isSpace n), hlower]
  simp only [print_ne_nil, if_false, hsuffix, parseU64_print_of_lt h, Nat.div_one, Nat.mul_one]
  rw [if_neg]
  simp only [uint64Max]
  omega

section Written

variable {c c₀ : LoadedConfig}

/-- Every value of settings that can be written can be printed. -/
theorem Writable.printable (hw : Writable c) (s : Setting) : Printable (valueIn c s) := by
  cases hx : valueIn c s with
  | text t => exact hw.quotable s t hx
  | _ => trivial

/-- A value that was written means itself. -/
theorem Writable.meaning (hw : Writable c) (s : Setting) :
    meaning (plainValue (valueIn c s)) s = some (valueIn c s) := by
  have hadmits := hw.admits s
  have hbool : ∀ b, parseBool (plainValue (.flag b)) = some b := by decide
  cases s with
  | serverHost | persistenceAofPath | persistenceSnapshotPath | persistenceManifestPath => rfl
  | persistenceAofEnabled | expirationActiveEnabled | metricsEnabled | adminShutdownEnabled =>
    exact congrArg (Option.map _) (hbool _)
  | serverPort =>
    have hle : c.server.port < 2 ^ 16 := hadmits
    show (parseU16 (print c.server.port)).map _ = _
    rw [parseU16, parseU64_print_of_lt (by omega), Option.filter_some, if_pos]
    · rfl
    · exact decide_eq_true (by omega)
  | serverWorkers | serverMaxClients | storageShards | storageMaxMemoryBytes
  | expirationSamplePerShard | protocolMaxArrayElements =>
    show (parseSize (print _)).map _ = _
    rw [parseSize, parseU64_print_of_lt hadmits, Option.filter_some, if_pos]
    · rfl
    · exact decide_eq_true (Nat.le_of_lt_succ hadmits)
  | storageMaxMemory | protocolMaxRequestBytes | protocolMaxKeySize | protocolMaxValueSize
  | protocolMaxOutputBufferBytes =>
    show (parseByteSize (print _)).map _ = _
    rw [parseByteSize_print hadmits]
    rfl
  | expirationIntervalMs =>
    show (parseU64 (print _)).map _ = _
    rw [parseU64_print_of_lt hadmits]
    rfl
  | persistenceFsyncPolicy =>
    show (parseFsyncPolicy c.persistence.fsyncPolicy).map _ =
      some (SettingValue.text c.persistence.fsyncPolicy)
    have hpolicy : ∀ t, t = ascii "always" ∨ t = ascii "everysec" ∨ t = ascii "no" →
        parseFsyncPolicy t = some t := by
      rintro t (rfl | rfl | rfl) <;> decide
    rw [hpolicy _ hadmits]
    rfl
  | loggingLevel =>
    show some (SettingValue.text (toLowerAscii c.loggingLevel)) = _
    rw [show toLowerAscii c.loggingLevel = c.loggingLevel from hadmits]
    rfl

/-- A text that means something is accepted. -/
theorem assign_of_meaning {value : Bytes} {s : Setting} {x : SettingValue}
    (h : meaning value s = some x) (c : LoadedConfig) : ∃ c', assign c value s = .ok c' := by
  have hset : ∀ {α : Type} {parse : Bytes → Option α} {message : Bytes} {store : α → LoadedConfig}
      {f : α → SettingValue}, (parse value).map f = some x →
      ∃ c', setParsed parse message store value = .ok c' := by
    intro α parse message store f hparse
    obtain ⟨a, ha, -⟩ := Option.map_eq_some_iff.mp hparse
    exact ⟨store a, by rw [setParsed, ha]⟩
  cases s with
  | serverHost | persistenceAofPath | persistenceSnapshotPath | persistenceManifestPath
  | loggingLevel => exact ⟨_, rfl⟩
  | _ => exact hset h

/-- Settings for the same field have the same value. -/
theorem valueIn_of_slot_eq {s s' : Setting} (h : s.slot = s'.slot) (c : LoadedConfig) :
    valueIn c s = valueIn c s' := by
  cases s <;> cases s' <;> first | rfl | cases h

/-- **The lines for some settings** give these settings their values and leave the others. -/
theorem Writable.loadLines (hw : Writable c) (l : List Setting) (number : ℕ) (c₀ : LoadedConfig) :
    ∃ c₁, loadLines (l.map fun s => settingLine s (valueIn c s)) [] number c₀ = .ok c₁ ∧
      ∀ s, valueIn c₁ s = if s.slot ∈ l.map slot then valueIn c s else valueIn c₀ s := by
  induction l generalizing number c₀ with
  | nil => exact ⟨c₀, rfl, fun s => rfl⟩
  | cons s₀ l ih =>
    have hmeaning := hw.meaning s₀
    obtain ⟨c₁, hassign⟩ := assign_of_meaning hmeaning c₀
    have hkv : applyKv c₀ (qualified [] s₀.key) (plainValue (valueIn c s₀)) = .ok c₁ := by
      rw [qualified, if_pos rfl, applyKv, ofKey_key, stripQuotes_plainValue (hw.printable s₀)]
      exact hassign
    obtain ⟨c₂, hrest, hvalue⟩ := ih (number + 1) c₁
    refine ⟨c₂, ?_, fun s => ?_⟩
    · rw [List.map_cons, ConfigLoader.loadLines, readLine_settingLine s₀ (hw.printable s₀)]
      simp only [hkv]
      exact hrest
    · obtain ⟨x, hx, hread⟩ := read_assign hassign
      rw [hmeaning, Option.some.injEq] at hx
      rw [hvalue s, hread s, List.map_cons]
      by_cases hmem : s.slot ∈ l.map slot
      · rw [if_pos hmem, if_pos (List.mem_cons_of_mem _ hmem)]
      · rw [if_neg hmem]
        by_cases hslot : s₀.slot = s.slot
        · rw [if_pos hslot, if_pos (hslot ▸ List.mem_cons_self), ← hx]
          exact valueIn_of_slot_eq hslot c
        · rw [if_neg hslot, if_neg]
          rintro hcons
          rcases List.mem_cons.mp hcons with heq | htail
          · exact hslot heq.symm
          · exact hmem htail

/-- A configuration is known by its settings. -/
theorem eq_of_valueIn_eq (h : ∀ s, valueIn c s = valueIn c₀ s) : c = c₀ := by
  obtain ⟨⟨⟨_, _, _, _⟩, ⟨_, _⟩, ⟨_, _, _, _, _⟩, ⟨_, _, _⟩, ⟨_⟩, ⟨_, _, _, _, _⟩⟩, _, _⟩ := c
  obtain ⟨⟨⟨_, _, _, _⟩, ⟨_, _⟩, ⟨_, _, _, _, _⟩, ⟨_, _, _⟩, ⟨_⟩, ⟨_, _, _, _, _⟩⟩, _, _⟩ := c₀
  cases h .serverHost
  cases h .serverPort
  cases h .serverWorkers
  cases h .serverMaxClients
  cases h .storageShards
  cases h .storageMaxMemoryBytes
  cases h .persistenceAofEnabled
  cases h .persistenceAofPath
  cases h .persistenceFsyncPolicy
  cases h .persistenceSnapshotPath
  cases h .persistenceManifestPath
  cases h .expirationActiveEnabled
  cases h .expirationIntervalMs
  cases h .expirationSamplePerShard
  cases h .loggingLevel
  cases h .metricsEnabled
  cases h .adminShutdownEnabled
  cases h .protocolMaxRequestBytes
  cases h .protocolMaxArrayElements
  cases h .protocolMaxKeySize
  cases h .protocolMaxValueSize
  cases h .protocolMaxOutputBufferBytes
  rfl

/-- The lines of a written file give the settings back. -/
theorem Writable.loadLines_configText (hw : Writable c) :
    ConfigLoader.loadLines (lines (configText c)) [] 1 {} = .ok c := by
  have hlines : lines (configText c) = Setting.all.map fun s => settingLine s (valueIn c s) := by
    have hflat : configText c =
        (Setting.all.map fun s => settingLine s (valueIn c s)).flatMap (· ++ [10]) := by
      rw [configText, List.flatMap_map]
    rw [hflat, lines_flatMap]
    intro l hl
    obtain ⟨s, -, rfl⟩ := List.mem_map.mp hl
    exact newline_notMem_settingLine s (hw.printable s)
  obtain ⟨c₁, hload, hvalue⟩ := hw.loadLines Setting.all 1 {}
  rw [hlines, hload]
  refine congrArg Except.ok (eq_of_valueIn_eq fun s => ?_)
  rw [hvalue s, if_pos (List.mem_map_of_mem (mem_all s))]

end Written

/-- Without variables the environment has no say. -/
theorem applyEnvEntries_none {getenv : Bytes → Option Bytes} {entries : List (Bytes × Setting)}
    (h : ∀ p ∈ entries, getenv p.1 = none) (c : LoadedConfig) :
    applyEnvEntries getenv entries c = .ok c := by
  induction entries with
  | nil => rfl
  | cons entry rest ih =>
    obtain ⟨name, s⟩ := entry
    rw [applyEnvEntries, h (name, s) List.mem_cons_self]
    exact ih fun p hp => h p (List.mem_cons_of_mem _ hp)

/-- **Round trip.** A configuration that was loaded, however it came about, is written to a file; a
load of this file, with no variables and no other options, gives the same configuration. -/
theorem loaded_config_round_trip {sur sur' : Surroundings} {args : List Bytes} {c : LoadedConfig}
    {path : Bytes} (h : load sur args = .loaded c)
    (hquotable : ∀ s t, valueIn c s = .text t → Quotable t) (hpath : path ≠ [])
    (hfile : sur'.readFile path = some (configText c))
    (henv : ∀ p ∈ envEntries, sur'.getenv p.1 = none) :
    load sur' [ascii "--config", path] = .loaded c := by
  have hw : Writable c := ⟨admits_of_load h, hquotable⟩
  have hhelp : ¬ (ascii "--config" = ascii "--help" ∨ ascii "--config" = ascii "-h") := by decide
  have hscan : scanArgs [ascii "--config", path] [] = .path path := by
    rw [scanArgs.eq_def]
    simp only [if_neg hhelp, if_true]
    rfl
  have hargs : ∀ c, applyArgs [ascii "--config", path] c = .ok c := by
    intro c
    rw [applyArgs.eq_def]
    simp only [if_true]
    rfl
  have hlayers : applyLayers sur' path [ascii "--config", path] = .ok c := by
    have hbind : ∀ f : LoadedConfig → Except Status LoadedConfig, (Except.ok c >>= f) = f c :=
      fun _ => rfl
    rw [applyLayers, fileLayer, if_neg hpath, loadFile, hfile]
    simp only [hw.loadLines_configText, applyEnv, hbind, applyEnvEntries_none henv, hargs]
  rw [load, hscan]
  simp only [hlayers, atLeastOne_of_load h]

/-- The configuration of `layered`, written and loaded. -/
theorem layered_round_trip :
    load ⟨fun _ => none, fun _ => some (configText
        { server := { port := 100, workers := 20, maxClients := 3 } })⟩ [ascii "--config", ascii "b"] =
      .loaded { server := { port := 100, workers := 20, maxClients := 3 } } := by
  refine loaded_config_round_trip layered_loaded (fun s t ht => ?_) (by decide) rfl fun _ _ => rfl
  cases s <;> cases ht <;> decide +kernel

end VeloxDb.ConfigLoader
