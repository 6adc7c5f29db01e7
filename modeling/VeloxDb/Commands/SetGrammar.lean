import VeloxDb.Commands.Expiry

/-!
# The options of `SET`

The option loop of `SET` keeps a condition, a time to live and a timestamp, and an absent value of
these also stands for a number that was refused. Beside it stands what the options are meant to be:
a sequence of items with at most one condition and at most one expiry. The loop is cut into what it
does with the conditions and what it does with the expiries, which do not depend on each other; only
the latter part strays from the grammar.
-/

namespace VeloxDb

open Decimal Util

/-! ## The grammar -/

/-- The options that set an expiry. -/
inductive ExpiryOption
  | ex
  | px
  | exat
  | pxat
deriving DecidableEq, Repr

namespace ExpiryOption

/-- The word of an expiry option. -/
def keyword : ExpiryOption → Bytes
  | .ex => ascii "EX"
  | .px => ascii "PX"
  | .exat => ascii "EXAT"
  | .pxat => ascii "PXAT"

/-- The milliseconds that the number counts in. -/
def unit : ExpiryOption → ℤ
  | .ex | .exat => 1000
  | .px | .pxat => 1

/-- The number is a time to live, not a timestamp. -/
def Relative (option : ExpiryOption) : Prop := option = .ex ∨ option = .px

instance (option : ExpiryOption) : Decidable option.Relative :=
  inferInstanceAs (Decidable (_ ∨ _))

/-- The time that the option denotes with the number `x`. -/
def deadline (option : ExpiryOption) (now : TimePoint) (x : ℤ) : ℤ :=
  (if option.Relative then now else 0) + x * option.unit * nanosPerMilli

/-- The option that an upper-case word stands for. -/
def ofKeyword (word : Bytes) : Option ExpiryOption :=
  [ex, px, exat, pxat].find? fun option => option.keyword = word

end ExpiryOption

/-- An item of the options of `SET`. -/
inductive SetItem
  | nx
  | xx
  | expiry (option : ExpiryOption) (arg : Bytes)
deriving DecidableEq, Repr

/-- The items that the words of the options stand for, in any case of the letters. -/
def setItems : List Bytes → Option (List SetItem)
  | [] => some []
  | arg :: rest =>
    let word := toUpperAscii arg
    if word = ascii "NX" then (setItems rest).map (.nx :: ·)
    else if word = ascii "XX" then (setItems rest).map (.xx :: ·)
    else
      match ExpiryOption.ofKeyword word with
      | none => none
      | some option =>
        match rest with
        | [] => none
        | value :: rest => (setItems rest).map (.expiry option value :: ·)

/-- The expiry options among the items. -/
def expiries (items : List SetItem) : List (ExpiryOption × Bytes) :=
  items.filterMap fun
    | .expiry option arg => some (option, arg)
    | _ => none

/-- The one condition among the items. -/
def conditionOf (items : List SetItem) : Option SetCondition :=
  if .nx ∈ items then if .xx ∈ items then none else some .nx
  else if .xx ∈ items then some .xx
  else some .always

/-- The one expiry among the items, a positive number. -/
def expiryOf : List (ExpiryOption × Bytes) → Option (Option (ExpiryOption × ℤ))
  | [] => some none
  | [(option, arg)] =>
    match parseI64 arg with
    | some x => if 0 < x then some (some (option, x)) else none
    | none => none
  | _ => none

/-- What the options of a `SET` ask for. -/
structure SetRequest where
  condition : SetCondition
  expiry : Option (ExpiryOption × ℤ)
deriving DecidableEq, Repr

/-- The deadline that is asked for. -/
def SetRequest.deadline (r : SetRequest) (now : TimePoint) : Option TimePoint :=
  r.expiry.map fun (option, x) => option.deadline now x

/-- The grammar: what is asked for by options that are well formed. -/
def setRequest (options : List Bytes) : Option SetRequest := do
  let items ← setItems options
  let condition ← conditionOf items
  let expiry ← expiryOf (expiries items)
  return ⟨condition, expiry⟩

/-- What `SET` replies where the storage has returned. -/
def setReply (code : WriteCode) : CommandResult :=
  if code = .ok then Commands.ok
  else if code = .notSet then ⟨Resp.nullBulk, false⟩
  else Commands.err (storageWriteError code)

/-- **`SET` accepts its grammar.** Options that are well formed go on to the storage, with the
condition that was given and a time to live that ends at the deadline that was given; with any
others the reply is an error, the storage is untouched and nothing is logged. -/
structure FollowsGrammar (now : TimePoint) (options : List Bytes) : Prop where
  accepted : ∀ r, setRequest options = some r → ∃ ttl, ttl.map (addMillis now) = r.deadline now ∧
    ∀ e name key value,
      (Commands.set e now (name :: key :: value :: options)).storage
        = (e.set key value ttl r.condition now).2 ∧
      (Commands.set e now (name :: key :: value :: options)).result
        = setReply (e.set key value ttl r.condition now).1.code
  rejected : setRequest options = none → ∀ e name key value,
    (Commands.set e now (name :: key :: value :: options)).result.isError = true ∧
      (Commands.set e now (name :: key :: value :: options)).storage = e ∧
      (Commands.set e now (name :: key :: value :: options)).record = none

/-! ## The option loop -/

namespace Commands

/-- What the loop does with an item. -/
def scanItem (o : SetOptions) : SetItem → Option SetOptions
  | .nx => if o.condition = .xx then none else some { o with condition := .nx }
  | .xx => if o.condition = .nx then none else some { o with condition := .xx }
  | .expiry option arg =>
    if o.ttl.isSome || o.pxat.isSome then none else (setExpiry o option.keyword arg).toOption

/-- Each of the four words is an option. -/
theorem exists_ofKeyword {word : Bytes}
    (h : word = ascii "EX" ∨ word = ascii "PX" ∨ word = ascii "EXAT" ∨ word = ascii "PXAT") :
    ∃ option, ExpiryOption.ofKeyword word = some option := by
  rcases h with rfl | rfl | rfl | rfl
  · exact ⟨.ex, by decide⟩
  · exact ⟨.px, by decide⟩
  · exact ⟨.exat, by decide⟩
  · exact ⟨.pxat, by decide⟩

/-- An option is found under its word. -/
theorem keyword_of_ofKeyword {word : Bytes} {option : ExpiryOption}
    (h : ExpiryOption.ofKeyword word = some option) : option.keyword = word := by
  simpa using List.find?_some h

/-- Any other word is no option. -/
theorem ofKeyword_eq_none {word : Bytes}
    (h : ¬ (word = ascii "EX" ∨ word = ascii "PX" ∨ word = ascii "EXAT" ∨ word = ascii "PXAT")) :
    ExpiryOption.ofKeyword word = none := by
  cases hoption : ExpiryOption.ofKeyword word with
  | none => rfl
  | some option =>
    rw [← keyword_of_ofKeyword hoption] at h
    cases option <;> simp [ExpiryOption.keyword] at h

section Items

variable {arg : Bytes} {rest : List Bytes}

/-- A leading `NX`. -/
theorem setItems_nx (hnx : toUpperAscii arg = ascii "NX") :
    setItems (arg :: rest) = (setItems rest).map (.nx :: ·) := by
  rw [setItems]
  exact if_pos hnx

/-- A leading `XX`. -/
theorem setItems_xx (hnx : toUpperAscii arg ≠ ascii "NX") (hxx : toUpperAscii arg = ascii "XX") :
    setItems (arg :: rest) = (setItems rest).map (.xx :: ·) := by
  rw [setItems]
  exact (if_neg hnx).trans (if_pos hxx)

/-- A leading expiry option with its value. -/
theorem setItems_expiry {option : ExpiryOption} (value : Bytes) (hnx : toUpperAscii arg ≠ ascii "NX")
    (hxx : toUpperAscii arg ≠ ascii "XX")
    (hoption : ExpiryOption.ofKeyword (toUpperAscii arg) = some option) :
    setItems (arg :: value :: rest) = (setItems rest).map (.expiry option value :: ·) := by
  rw [setItems]
  simp [hnx, hxx, hoption]

end Items

/-- Reading an item and then those that follow, if they are items. -/
theorem bind_foldlM_cons (item : SetItem) (l : Option (List SetItem)) (o : SetOptions) :
    ((l.map (item :: ·)).bind fun items => items.foldlM scanItem o)
      = (scanItem o item).bind fun o' => l.bind fun items => items.foldlM scanItem o' := by
  cases l with
  | none => simp
  | some items => rfl

/-- **The option loop** reads the items one after the other. -/
theorem toOption_parseSetOptions (words : List Bytes) (o : SetOptions) :
    (parseSetOptions words o).toOption = (setItems words).bind fun items => items.foldlM scanItem o := by
  fun_induction parseSetOptions words o with
  | case1 o => rfl
  | case2 arg rest o option hnx hcond =>
    rw [setItems_nx hnx, bind_foldlM_cons, scanItem, if_pos hcond]
    rfl
  | case3 arg rest o option hnx hcond ih =>
    rw [setItems_nx hnx, bind_foldlM_cons, scanItem, if_neg hcond, ih]
    rfl
  | case4 arg rest o option hnx hxx hcond =>
    rw [setItems_xx hnx hxx, bind_foldlM_cons, scanItem, if_pos hcond]
    rfl
  | case5 arg rest o option hnx hxx hcond ih =>
    rw [setItems_xx hnx hxx, bind_foldlM_cons, scanItem, if_neg hcond, ih]
    rfl
  | case6 arg o option hnx hxx hopt =>
    obtain ⟨expiry, hexpiry⟩ := exists_ofKeyword hopt
    simp [setItems, option, hnx, hxx, hexpiry, Except.toOption]
  | case7 arg o option hnx hxx hopt value rest hset =>
    obtain ⟨expiry, hexpiry⟩ := exists_ofKeyword hopt
    rw [setItems_expiry value hnx hxx hexpiry, bind_foldlM_cons, scanItem, if_pos hset]
    rfl
  | case8 arg o option hnx hxx hopt value rest hnone message hset =>
    obtain ⟨expiry, hexpiry⟩ := exists_ofKeyword hopt
    rw [setItems_expiry value hnx hxx hexpiry, bind_foldlM_cons, scanItem, if_neg hnone,
      keyword_of_ofKeyword hexpiry, hset]
    rfl
  | case9 arg o option hnx hxx hopt value rest hnone o' hset ih =>
    obtain ⟨expiry, hexpiry⟩ := exists_ofKeyword hopt
    rw [setItems_expiry value hnx hxx hexpiry, bind_foldlM_cons, scanItem, if_neg hnone,
      keyword_of_ofKeyword hexpiry, hset, ih]
    rfl
  | case10 arg rest o option hnx hxx hopt =>
    have hnone : ExpiryOption.ofKeyword (toUpperAscii arg) = none := ofKeyword_eq_none hopt
    have hitems : setItems (arg :: rest) = none := by
      rw [setItems.eq_def]
      simp only
      rw [if_neg hnx, if_neg hxx, hnone]
    rw [hitems]
    rfl

/-! ## Conditions and expiries -/

/-- What the loop does with the conditions. -/
def scanCondition : SetCondition → List SetItem → Option SetCondition
  | c, [] => some c
  | c, .nx :: items => if c = .xx then none else scanCondition .nx items
  | c, .xx :: items => if c = .nx then none else scanCondition .xx items
  | c, .expiry _ _ :: items => scanCondition c items

/-- What the loop reads from an expiry: nothing, where a time to live is refused. -/
def readExpiry (option : ExpiryOption) (arg : Bytes) : Option SetOptions :=
  if option.Relative then
    match parseTtlMs arg option.unit with
    | none => some {}
    | some ttl => if ttl ≤ 0 then none else some { ttl := some ttl }
  else
    match parseI64 arg with
    | none => none
    | some x =>
      if wrap64 (x * option.unit) ≤ 0 then none else some { pxat := some (wrap64 (x * option.unit)) }

/-- What the loop does with the expiries: after one that left nothing, another one is taken. -/
def scanExpiries : List (ExpiryOption × Bytes) → Option SetOptions
  | [] => some {}
  | (option, arg) :: rest =>
    match readExpiry option arg with
    | none => none
    | some v => if v = {} then scanExpiries rest else if rest = [] then some v else none

/-- The same, where an expiry may have been read before. -/
def scanExpiriesFrom (o : SetOptions) (list : List (ExpiryOption × Bytes)) : Option SetOptions :=
  if o.ttl.isSome || o.pxat.isSome then
    if list = [] then some { ttl := o.ttl, pxat := o.pxat } else none
  else scanExpiries list

/-- `EX` and `PX` set a time to live, or none if the value does not parse. -/
theorem withExpiry_of_relative (o : SetOptions) {option : ExpiryOption} (h : option.Relative)
    (arg : Bytes) :
    withExpiry o option.keyword arg = some { o with ttl := parseTtlMs arg option.unit } := by
  rcases h with rfl | rfl <;> rfl

/-- `EXAT` and `PXAT` set a deadline, in 64 bits. -/
theorem withExpiry_of_not_relative (o : SetOptions) {option : ExpiryOption} (h : ¬ option.Relative)
    (arg : Bytes) :
    withExpiry o option.keyword arg
      = (parseI64 arg).map fun x => { o with pxat := some (wrap64 (x * option.unit)) } := by
  cases hparse : parseI64 arg with
  | none => cases option <;> simp_all [withExpiry, ExpiryOption.keyword, ExpiryOption.Relative, ascii]
  | some x =>
    have hin : wrap64 x = x := wrap64_of_inI64 (inI64_of_parseI64 hparse)
    cases option with
    | ex | px => simp [ExpiryOption.Relative] at h
    | exat => simp [withExpiry, ExpiryOption.keyword, ExpiryOption.unit, hparse, ascii]
    | pxat => simp [withExpiry, ExpiryOption.keyword, ExpiryOption.unit, hparse, hin, ascii]

/-- The first expiry option is read by itself. -/
theorem setExpiry_eq_readExpiry {o : SetOptions} (hnone : ¬ (o.ttl.isSome || o.pxat.isSome))
    (option : ExpiryOption) (arg : Bytes) :
    (setExpiry o option.keyword arg).toOption
      = (readExpiry option arg).map fun v => { v with condition := o.condition } := by
  obtain ⟨condition, ttl, pxat⟩ := o
  simp only [Bool.or_eq_true, not_or, Bool.not_eq_true, Option.isSome_eq_false_iff,
    Option.isNone_iff_eq_none] at hnone
  obtain ⟨rfl, rfl⟩ := hnone
  by_cases hrel : option.Relative
  · rw [setExpiry, withExpiry_of_relative _ hrel, readExpiry, if_pos hrel]
    cases parseTtlMs arg option.unit with
    | none => simp [Except.toOption]
    | some ttl => by_cases hpos : ttl ≤ 0 <;> simp [hpos, Except.toOption]
  · rw [setExpiry, withExpiry_of_not_relative _ hrel, readExpiry, if_neg hrel]
    cases parseI64 arg with
    | none => simp [Except.toOption]
    | some x => by_cases hpos : wrap64 (x * option.unit) ≤ 0 <;> simp [hpos, Except.toOption]

/-- An expiry option leaves no value exactly if it does not parse. -/
theorem readExpiry_eq_empty {option : ExpiryOption} {arg : Bytes} {v : SetOptions}
    (h : readExpiry option arg = some v) : v = {} ↔ ¬ (v.ttl.isSome || v.pxat.isSome) := by
  rw [readExpiry] at h
  split_ifs at h with hrel
  · split at h
    · cases h
      simp
    · split_ifs at h
      cases h
      simp
  · split at h
    · cases h
    · split_ifs at h
      cases h
      simp

/-- **The loop in two parts**: the conditions and the expiries do not depend on each other. -/
theorem foldlM_scanItem (items : List SetItem) (o : SetOptions) :
    items.foldlM scanItem o = (scanCondition o.condition items).bind fun c =>
      (scanExpiriesFrom o (expiries items)).map fun v => { v with condition := c } := by
  induction items generalizing o with
  | nil =>
    obtain ⟨condition, ttl, pxat⟩ := o
    cases ttl <;> cases pxat <;> rfl
  | cons item items ih =>
    rw [List.foldlM_cons]
    cases item with
    | nx =>
      by_cases hcond : o.condition = .xx
      · simp [scanItem, scanCondition, hcond]
      · simp [scanItem, scanCondition, hcond, ih, expiries, scanExpiriesFrom]
    | xx =>
      by_cases hcond : o.condition = .nx
      · simp [scanItem, scanCondition, hcond]
      · simp [scanItem, scanCondition, hcond, ih, expiries, scanExpiriesFrom]
    | expiry option arg =>
      have hexpiries : expiries (.expiry option arg :: items) = (option, arg) :: expiries items := rfl
      rw [hexpiries, scanCondition]
      by_cases hset : o.ttl.isSome || o.pxat.isSome
      · simp [scanItem, scanExpiriesFrom, hset]
      · rw [scanItem, if_neg hset, setExpiry_eq_readExpiry hset, scanExpiriesFrom, if_neg hset,
          scanExpiries]
        cases hread : readExpiry option arg with
        | none => simp
        | some v =>
          have hv : v = {} ↔ ¬ (v.ttl.isSome || v.pxat.isSome) := readExpiry_eq_empty hread
          simp only [Option.map_some, Option.bind_eq_bind, Option.bind_some, ih, scanExpiriesFrom]
          by_cases hempty : v = {}
          · rw [if_pos hempty, if_neg (hv.mp hempty)]
          · rw [if_neg hempty, if_pos (not_not.mp (mt hv.mpr hempty))]
            split_ifs <;> rfl

/-- Behind an `NX` no `XX` may follow. -/
theorem scanCondition_nx (items : List SetItem) :
    scanCondition .nx items = if .xx ∈ items then none else some .nx := by
  induction items with
  | nil => rfl
  | cons item items ih => cases item <;> simp [scanCondition, ih]

/-- Behind an `XX` no `NX` may follow. -/
theorem scanCondition_xx (items : List SetItem) :
    scanCondition .xx items = if .nx ∈ items then none else some .xx := by
  induction items with
  | nil => rfl
  | cons item items ih => cases item <;> simp [scanCondition, ih]

/-- The loop takes the conditions that the grammar takes. -/
theorem scanCondition_always (items : List SetItem) :
    scanCondition .always items = conditionOf items := by
  induction items with
  | nil => rfl
  | cons item items ih =>
    cases item with
    | nx => simp [scanCondition, scanCondition_nx, conditionOf]
    | xx => simp [scanCondition, scanCondition_xx, conditionOf]
    | expiry option arg => simp [scanCondition, ih, conditionOf]

/-- What the option loop returns, if it does. -/
theorem toOption_parse (options : List Bytes) :
    (parseSetOptions options {}).toOption = (setItems options).bind fun items =>
      (conditionOf items).bind fun c =>
        (scanExpiries (expiries items)).map fun v => { v with condition := c } := by
  rw [toOption_parseSetOptions]
  congr 1
  funext items
  rw [foldlM_scanItem, scanCondition_always]
  rfl

/-- The loop goes on after this expiry as though it were not there. -/
def Overlooked (item : ExpiryOption × Bytes) : Prop :=
  item.1.Relative ∧ parseTtlMs item.2 item.1.unit = none

/-- The loop takes the expiry for one. -/
def Taken (item : ExpiryOption × Bytes) : Prop :=
  if item.1.Relative then ∃ ttl, parseTtlMs item.2 item.1.unit = some ttl ∧ 0 < ttl
  else ∃ x, parseI64 item.2 = some x ∧ 0 < wrap64 (x * item.1.unit)

/-- An expiry is overlooked, taken or refused. -/
theorem readExpiry_cases (option : ExpiryOption) (arg : Bytes) :
    (Overlooked (option, arg) ∧ readExpiry option arg = some {}) ∨
    (¬ Overlooked (option, arg) ∧ Taken (option, arg) ∧ ∃ v ≠ {}, readExpiry option arg = some v) ∨
    (¬ Overlooked (option, arg) ∧ ¬ Taken (option, arg) ∧ readExpiry option arg = none) := by
  by_cases hrel : option.Relative
  · simp only [readExpiry, Overlooked, Taken, hrel, true_and, if_true]
    cases parseTtlMs arg option.unit with
    | none => simp
    | some ttl => by_cases hpos : 0 < ttl <;> simp [hpos]
  · simp only [readExpiry, Overlooked, Taken, hrel, false_and, if_false]
    cases parseI64 arg with
    | none => simp
    | some x => by_cases hpos : 0 < wrap64 (x * option.unit) <;> simp [hpos]

/-- **The loop goes through** where every expiry but the last is overlooked and the last is, or is
taken. -/
theorem scanExpiries_isSome_iff (list : List (ExpiryOption × Bytes)) :
    (scanExpiries list).isSome ↔ (∀ item ∈ list.dropLast, Overlooked item) ∧
      ∀ item ∈ list.getLast?, Overlooked item ∨ Taken item := by
  induction list with
  | nil => simp [scanExpiries]
  | cons item rest ih =>
    obtain ⟨option, arg⟩ := item
    rw [scanExpiries]
    cases rest with
    | nil =>
      rcases readExpiry_cases option arg with
        ⟨hover, hread⟩ | ⟨hover, htaken, v, hv, hread⟩ | ⟨hover, htaken, hread⟩
      · simp [hread, hover, scanExpiries]
      · simp [hread, hv, htaken]
      · simp [hread, hover, htaken]
    | cons next rest =>
      rw [List.dropLast_cons_cons, List.getLast?_cons_cons, List.forall_mem_cons, and_assoc, ← ih]
      rcases readExpiry_cases option arg with
        ⟨hover, hread⟩ | ⟨hover, htaken, v, hv, hread⟩ | ⟨hover, htaken, hread⟩
      · simp [hread, hover]
      · simp [hread, hv, hover]
      · simp [hread, hover]

/-! ## What becomes of the options -/

/-- `SET` with options that parse is the call on the engine. -/
theorem set_of_parsed {options : List Bytes} {o : SetOptions}
    (hparse : parseSetOptions options {} = .ok o) (e : StorageEngine) (now : TimePoint)
    (name key value : Bytes) :
    (Commands.set e now (name :: key :: value :: options)).storage
        = (e.set key value (o.effectiveTtl now) o.condition now).2 ∧
      (Commands.set e now (name :: key :: value :: options)).result
        = setReply (e.set key value (o.effectiveTtl now) o.condition now).1.code := by
  simp only [Commands.set, hparse, setReply]
  generalize e.set key value (o.effectiveTtl now) o.condition now = w
  obtain ⟨⟨code, _⟩, e'⟩ := w
  cases code <;> simp

/-- `SET` with options that do not parse is refused with the message. -/
theorem set_of_unparsed {options : List Bytes} {message : Bytes}
    (hparse : parseSetOptions options {} = .error message) (e : StorageEngine) (now : TimePoint)
    (name key value : Bytes) :
    (Commands.set e now (name :: key :: value :: options)).result.isError = true ∧
      (Commands.set e now (name :: key :: value :: options)).storage = e ∧
      (Commands.set e now (name :: key :: value :: options)).record = none := by
  simp [Commands.set, hparse]

/-- There is an engine that takes a value under a given condition. -/
theorem exists_admits (c : SetCondition) (now : TimePoint) : ∃ e : StorageEngine, e.WF ∧
    c.Allows (e.keyspace.visible now (ascii "k")) ∧ e.Admits (ascii "k") (ascii "v") := by
  have hnew := StorageEngine.wf_new ⟨{}, {}, fun _ => 0⟩
  obtain ⟨-, hadmits, hb⟩ : _ ∧ StorageEngine.Admits _ _ _ ∧ StorageEngine.Becomes _ singleKeyEngine _ :=
    StorageEngine.set_of_ok hnew (by decide +kernel)
  cases c with
  | always => exact ⟨_, hnew, .always _, hadmits⟩
  | nx => exact ⟨_, hnew, ⟨fun _ => rfl, nofun⟩, hadmits⟩
  | xx =>
    have hkey : singleKeyEngine.keyspace (ascii "k") = some ⟨ascii "v", none⟩ := by
      rw [hb.keyspace, Function.update_self]
      rfl
    have hvisible : singleKeyEngine.keyspace.visible now (ascii "k") = some ⟨ascii "v", none⟩ :=
      Keyspace.visible_eq_some.mpr ⟨hkey, rfl⟩
    refine ⟨singleKeyEngine, hb.wf, ⟨nofun, fun _ => ?_⟩, StorageEngine.admits_of_stored hb.wf hkey⟩
    rw [hvisible]
    simp

/-- The grammar in its parts: the items, the condition, the expiry. -/
theorem setRequest_eq (options : List Bytes) :
    setRequest options = (setItems options).bind fun items =>
      (conditionOf items).bind fun c => (expiryOf (expiries items)).map fun expiry => ⟨c, expiry⟩ := by
  rw [setRequest]
  simp only [Option.bind_eq_bind, Option.map_eq_bind]
  rfl

/-- The loop and the grammar find the same condition. -/
theorem condition_of_parse {options : List Bytes} {o : SetOptions} {r : SetRequest}
    (hparse : parseSetOptions options {} = .ok o) (hr : setRequest options = some r) :
    o.condition = r.condition := by
  have hsome := toOption_parse options
  rw [hparse] at hsome
  rw [setRequest_eq] at hr
  cases hitems : setItems options with
  | none => simp [hitems] at hr
  | some items =>
    cases hc : conditionOf items with
    | none => simp [hitems, hc] at hr
    | some c =>
      simp only [hitems, hc, Option.bind_some, Option.map_eq_some_iff] at hr
      obtain ⟨expiry, -, rfl⟩ := hr
      rw [hitems, Option.bind_some, hc, Option.bind_some, eq_comm] at hsome
      obtain ⟨v, -, rfl⟩ := Option.map_eq_some_iff.mp hsome
      rfl

/-- **The grammar is followed** exactly if the option loop returns what the grammar says. -/
theorem followsGrammar_iff (now : TimePoint) (options : List Bytes) :
    FollowsGrammar now options ↔
      (∀ r, setRequest options = some r → ∃ o, (parseSetOptions options {}).toOption = some o ∧
        o.condition = r.condition ∧ (o.effectiveTtl now).map (addMillis now) = r.deadline now) ∧
      (setRequest options = none → (parseSetOptions options {}).toOption = none) := by
  constructor
  · rintro ⟨haccepted, hrejected⟩
    constructor
    · intro r hr
      obtain ⟨ttl, httl, hset⟩ := haccepted r hr
      obtain ⟨e, hwf, hallows, hadmits⟩ := exists_admits r.condition now
      obtain ⟨e₁, hcall, hb⟩ := StorageEngine.set_of_admits hwf ttl hallows hadmits
      obtain ⟨hstorage, hresult⟩ := hset e (ascii "SET") (ascii "k") (ascii "v")
      rw [hcall] at hstorage hresult
      cases hparse : parseSetOptions options {} with
      | error message =>
        -- the reply is no error
        have herror := (set_of_unparsed hparse e now (ascii "SET") (ascii "k") (ascii "v")).1
        rw [hresult] at herror
        exact Bool.noConfusion herror
      | ok o =>
        have hcondition : o.condition = r.condition := condition_of_parse hparse hr
        obtain ⟨hstorage', -⟩ := set_of_parsed hparse e now (ascii "SET") (ascii "k") (ascii "v")
        obtain ⟨e₂, hcall', hb'⟩ :=
          StorageEngine.set_of_admits hwf (o.effectiveTtl now) hallows hadmits
        rw [hcondition, hcall', hstorage] at hstorage'
        obtain rfl : e₁ = e₂ := hstorage'
        refine ⟨o, rfl, hcondition, ?_⟩
        have hitem := congrFun (hb'.keyspace.symm.trans hb.keyspace) (ascii "k")
        simp only [Function.update_self, Option.some.injEq, Item.mk.injEq, true_and] at hitem
        rw [hitem, httl]
    · intro hnone
      cases hparse : parseSetOptions options {} with
      | error message => rfl
      | ok o =>
        -- the value is taken
        obtain ⟨e, hwf, hallows, hadmits⟩ := exists_admits o.condition now
        obtain ⟨e', hcall, -⟩ :=
          StorageEngine.set_of_admits hwf (o.effectiveTtl now) hallows hadmits
        obtain ⟨-, hresult⟩ := set_of_parsed hparse e now (ascii "SET") (ascii "k") (ascii "v")
        have herror := (hrejected hnone e (ascii "SET") (ascii "k") (ascii "v")).1
        rw [hresult, hcall] at herror
        exact Bool.noConfusion herror
  · rintro ⟨haccepted, hrejected⟩
    refine ⟨fun r hr => ?_, fun hnone e name key value => ?_⟩
    · obtain ⟨o, hsome, hcondition, hdeadline⟩ := haccepted r hr
      refine ⟨o.effectiveTtl now, hdeadline, fun e name key value => ?_⟩
      rw [← hcondition]
      cases hparse : parseSetOptions options {} with
      | error message => simp [hparse, Except.toOption] at hsome
      | ok o' =>
        obtain rfl : o' = o := by simpa [hparse, Except.toOption] using hsome
        exact set_of_parsed hparse e now name key value
    · have hrefused := hrejected hnone
      cases hparse : parseSetOptions options {} with
      | error message => exact set_of_unparsed hparse e now name key value
      | ok o => simp [hparse, Except.toOption] at hrefused

/-! ## The expiries that are understood -/

/-- The deadline fits the clock; as the distance to a timestamp is cut to milliseconds, that is kept
only if the clock shows whole milliseconds. -/
def ExpiryFits (now : TimePoint) (option : ExpiryOption) (x : ℤ) : Prop :=
  option.deadline now x ≤ int64Max ∧ (option.Relative ∨ nanosPerMilli ∣ now)

/-- An expiry that the loop takes as the grammar has it: no time to live that is not a number, a
deadline that fits, and no negative number whose product wraps to a positive one. -/
def ExpiryUnderstood (now : TimePoint) (option : ExpiryOption) (arg : Bytes) : Prop :=
  match parseI64 arg with
  | none => ¬ option.Relative
  | some x => if 0 < x then ExpiryFits now option x else wrap64 (x * option.unit) ≤ 0

/-- Of several expiries, one before the last is not overlooked or the last one is refused. -/
def ExpiriesUnderstood (now : TimePoint) : List (ExpiryOption × Bytes) → Prop
  | [] => True
  | [(option, arg)] => ExpiryUnderstood now option arg
  | list => ¬ ((∀ item ∈ list.dropLast, Overlooked item) ∧
      ∀ item ∈ list.getLast?, Overlooked item ∨ Taken item)

variable {now x : ℤ} {option : ExpiryOption} {arg : Bytes}

/-- A unit is positive. -/
theorem unit_pos (option : ExpiryOption) : 0 < option.unit := by
  cases option <;> decide

/-- What `EX` and `PX` leave, in 64 bits. -/
theorem readExpiry_relative (hrel : option.Relative) (hx : parseI64 arg = some x)
    (href : ¬ TtlRefused x option.unit) : readExpiry option arg
      = if wrap64 (x * option.unit) ≤ 0 then none
        else some { ttl := some (wrap64 (x * option.unit)) } := by
  rw [readExpiry, if_pos hrel, parseTtlMs_of_not_refused hx href]

/-- What `EXAT` and `PXAT` leave, in 64 bits. -/
theorem readExpiry_absolute (hrel : ¬ option.Relative) (hx : parseI64 arg = some x) :
    readExpiry option arg
      = if wrap64 (x * option.unit) ≤ 0 then none
        else some { pxat := some (wrap64 (x * option.unit)) } := by
  rw [readExpiry, if_neg hrel, hx]

/-- A number that is not positive is refused, unless the product wraps. -/
theorem readExpiry_nonpos_iff (hx : parseI64 arg = some x) (hpos : ¬ 0 < x) :
    readExpiry option arg = none ↔ wrap64 (x * option.unit) ≤ 0 := by
  by_cases hrel : option.Relative
  · rw [readExpiry_relative hrel hx fun href => hpos href.1]
    simp
  · rw [readExpiry_absolute hrel hx]
    simp

/-- The guard lets through exactly the products that fit. -/
theorem not_refused_iff {u : ℤ} (hu : 0 < u) (hpos : 0 < x) :
    ¬ TtlRefused x u ↔ x * u ≤ int64Max := by
  rw [TtlRefused, not_and, not_lt]
  constructor
  · intro h
    exact (Int.le_ediv_iff_mul_le hu).mp (h hpos)
  · intro h _
    exact (Int.le_ediv_iff_mul_le hu).mpr h

/-- An `EX` or `PX` with a positive number sets the deadline that it denotes exactly if that is a time of
the clock. -/
theorem read_relative_iff (hnow : 0 ≤ now) (hrel : option.Relative) (hx : parseI64 arg = some x)
    (hpos : 0 < x) :
    (∃ v, readExpiry option arg = some v ∧
        (v.effectiveTtl now).map (addMillis now) = some (option.deadline now x)) ↔
      option.deadline now x ≤ int64Max := by
  have hu := unit_pos option
  have hprod : 0 < x * option.unit := mul_pos hpos hu
  have hnot := not_refused_iff hu hpos
  have hread := readExpiry_relative hrel hx
  rw [ExpiryOption.deadline, if_pos hrel]
  generalize x * option.unit = ttl at *
  by_cases href : TtlRefused x option.unit
  · have hmax : ¬ ttl ≤ int64Max := fun h => hnot.mpr h href
    constructor
    · rintro ⟨v, hv, hkept⟩
      rw [readExpiry, if_pos hrel, parseTtlMs_of_refused hx href] at hv
      cases hv
      cases hkept
    · intro hle
      simp only [nanosPerMilli] at hle
      omega
  · have hin : InI64 ttl := ⟨by simp only [int64Min]; omega, hnot.mp href⟩
    rw [hread href, wrap64_of_inI64 hin, if_neg (by omega)]
    constructor
    · rintro ⟨v, ⟨⟩, hkept⟩
      have hkept : addMillis now ttl = now + ttl * nanosPerMilli := Option.some.inj hkept
      rw [addMillis_eq] at hkept
      exact hkept ▸ (inI64_wrap64 _).2
    · intro hle
      refine ⟨_, rfl, ?_⟩
      show some (addMillis now ttl) = _
      rw [addMillis_of_inI64]
      simp only [InI64, int64Min, nanosPerMilli] at *
      omega

/-- An `EXAT` or `PXAT` with a positive number sets the deadline that it denotes exactly if that is a
time of the clock and the clock shows a whole number of milliseconds. -/
theorem read_absolute_iff (hnow : InClock now) (hrel : ¬ option.Relative) (hx : parseI64 arg = some x)
    (hpos : 0 < x) :
    (∃ v, readExpiry option arg = some v ∧
        (v.effectiveTtl now).map (addMillis now) = some (option.deadline now x)) ↔
      option.deadline now x ≤ int64Max ∧ nanosPerMilli ∣ now := by
  have hprod : 0 < x * option.unit := mul_pos hpos (unit_pos option)
  rw [ExpiryOption.deadline, if_neg hrel, zero_add, readExpiry_absolute hrel hx]
  generalize x * option.unit = p at *
  -- whatever is kept is a time of the clock
  have hfits : ∀ t ms : ℤ, addMillis t ms = p * nanosPerMilli → p * nanosPerMilli ≤ int64Max := by
    intro t ms hkept
    rw [addMillis_eq] at hkept
    exact hkept ▸ (inI64_wrap64 _).2
  have hwrap : p * nanosPerMilli ≤ int64Max → wrap64 p = p := by
    intro hle
    refine wrap64_of_inI64 ?_
    simp only [InI64, int64Min, int64Max, nanosPerMilli] at *
    omega
  constructor
  · rintro ⟨v, hv, hkept⟩
    split_ifs at hv
    cases hv
    have hkept := Option.some.inj hkept
    have hle := hfits _ _ hkept
    rw [hwrap hle, pxat_deadline hnow hprod hle] at hkept
    refine ⟨hle, ?_⟩
    generalize (p * nanosPerMilli - now).tdiv nanosPerMilli = q at hkept
    have hkept : now + q * nanosPerMilli = p * nanosPerMilli := hkept
    refine ⟨p - q, ?_⟩
    rw [Int.mul_sub, mul_comm _ p, mul_comm _ q]
    omega
  · rintro ⟨hle, hdvd⟩
    rw [hwrap hle, if_neg (by omega)]
    refine ⟨_, rfl, ?_⟩
    show some (addMillis now (millisBetween (timepointFromUnixMs p) now)) = _
    rw [pxat_deadline hnow hprod hle, tdiv_mul_of_dvd (Int.dvd_sub (Int.dvd_mul_left _ _) hdvd),
      add_sub_cancel]

/-- One expiry option. -/
theorem scanExpiries_single (option : ExpiryOption) (arg : Bytes) :
    scanExpiries [(option, arg)] = readExpiry option arg := by
  rw [scanExpiries]
  cases readExpiry option arg with
  | none => rfl
  | some v => by_cases hv : v = {} <;> simp [hv, scanExpiries]

/-- What the loop reads from the expiries against what the grammar says. -/
theorem expiries_understood_iff (hnow : InClock now) (list : List (ExpiryOption × Bytes)) :
    ((∀ expiry, expiryOf list = some expiry → ∃ v, scanExpiries list = some v ∧
        (v.effectiveTtl now).map (addMillis now)
          = expiry.map fun (option, x) => option.deadline now x) ∧
      (expiryOf list = none → scanExpiries list = none)) ↔ ExpiriesUnderstood now list := by
  match list with
  | [] => simp [expiryOf, scanExpiries, ExpiriesUnderstood, SetOptions.effectiveTtl]
  | [(option, arg)] =>
    rw [scanExpiries_single, ExpiriesUnderstood, ExpiryUnderstood]
    cases hx : parseI64 arg with
    | none =>
      by_cases hrel : option.Relative
      · have hread : readExpiry option arg = some {} := by simp [readExpiry, hrel, parseTtlMs, hx]
        simp [expiryOf, hx, hread, hrel]
      · have hread : readExpiry option arg = none := by simp [readExpiry, hrel, hx]
        simp [expiryOf, hx, hread, hrel]
    | some x =>
      by_cases hpos : 0 < x
      · by_cases hrel : option.Relative
        · have hiff := read_relative_iff hnow.1 hrel hx hpos
          simpa [expiryOf, hx, hpos, ExpiryFits, hrel] using hiff
        · have hiff := read_absolute_iff hnow hrel hx hpos
          simpa [expiryOf, hx, hpos, ExpiryFits, hrel] using hiff
      · have hiff : readExpiry option arg = none ↔ wrap64 (x * option.unit) ≤ 0 :=
          readExpiry_nonpos_iff hx hpos
        simpa [expiryOf, hx, hpos] using hiff
  | first :: second :: rest =>
    have hiff := scanExpiries_isSome_iff (first :: second :: rest)
    rw [ExpiriesUnderstood, ← hiff]
    · simp [expiryOf]
    · simp
    · simp

end Commands

/-- The options of a `SET` that are read as the grammar has them. -/
def SetUnderstood (now : TimePoint) (options : List Bytes) : Prop :=
  ∀ items, setItems options = some items → (conditionOf items).isSome →
    Commands.ExpiriesUnderstood now (expiries items)

open Commands in
/-- **`SET` accepts exactly its option grammar** where the expiries are understood. -/
theorem set_follows_grammar_iff {now : TimePoint} (hnow : InClock now) (options : List Bytes) :
    FollowsGrammar now options ↔ SetUnderstood now options := by
  rw [followsGrammar_iff, setRequest_eq, toOption_parse]
  cases hitems : setItems options with
  | none => simp [SetUnderstood, hitems]
  | some items =>
    cases hc : conditionOf items with
    | none => simp [SetUnderstood, hitems, hc]
    | some c =>
      have hunderstood : SetUnderstood now options ↔ ExpiriesUnderstood now (expiries items) := by
        simp [SetUnderstood, hitems, hc]
      have heffective : ∀ v : SetOptions,
          ({ v with condition := c } : SetOptions).effectiveTtl now = v.effectiveTtl now := fun _ => rfl
      rw [hunderstood, ← expiries_understood_iff hnow]
      simp [hc, SetRequest.deadline, heffective]

theorem set_nx_px_follows_grammar :
    setRequest (["nx", "Px", "5"].map ascii) = some ⟨.nx, some (.px, 5)⟩ ∧
      FollowsGrammar 0 (["nx", "Px", "5"].map ascii) := by
  obtain ⟨hrequest, hlist⟩ :
      setRequest (["nx", "Px", "5"].map ascii) = some ⟨.nx, some (.px, 5)⟩ ∧
        setItems (["nx", "Px", "5"].map ascii) = some [.nx, .expiry .px (ascii "5")] := by
    decide +kernel
  refine ⟨hrequest, (set_follows_grammar_iff (by decide) _).mpr ?_⟩
  intro items hitems _
  obtain rfl : [.nx, .expiry .px (ascii "5")] = items := Option.some.inj (hlist.symm.trans hitems)
  have hparse : parseI64 (ascii "5") = some 5 := by decide
  simp [expiries, Commands.ExpiriesUnderstood, Commands.ExpiryUnderstood, hparse, Commands.ExpiryFits,
    ExpiryOption.Relative, ExpiryOption.deadline, ExpiryOption.unit, nanosPerMilli, int64Max]

/-- `EX abc` is not of the grammar, and the value is stored with no expiry. A second expiry is
taken, too, where the first was no number. -/
theorem set_ex_not_a_number :
    let fresh : StorageEngine := { setup := ⟨{}, {}, fun _ => 0⟩ }
    let eff := Commands.set fresh 0 (["SET", "k", "v", "EX", "abc"].map ascii)
    let eff' := Commands.set fresh 0 (["SET", "k", "v", "EX", "abc", "PX", "7"].map ascii)
    setRequest (["EX", "abc"].map ascii) = none ∧ eff.result = Commands.ok ∧
      eff.storage.keyspace (ascii "k") = some ⟨ascii "v", none⟩ ∧
      setRequest (["EX", "abc", "PX", "7"].map ascii) = none ∧ eff'.result = Commands.ok ∧
      eff'.storage.keyspace (ascii "k") = some ⟨ascii "v", some 7000000⟩ := by
  decide +kernel

end VeloxDb
