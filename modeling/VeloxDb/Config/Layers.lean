import VeloxDb.Common.Layers
import VeloxDb.Config.Loader

/-!
# What a configuration is made of

The file, the environment and the command line each spell a list of assignments. A load that is
accepted gives every setting the value of the last assignment to it: the command line hides the
environment, the environment the file, and the file the default.
-/

namespace VeloxDb

open Decimal Util Layers

/-! ## Values of settings -/

/-- A value of a setting. -/
inductive SettingValue
  | number (n : ℕ)
  | flag (b : Bool)
  | text (t : Bytes)
deriving DecidableEq, Repr

namespace Setting

open ConfigLoader

/-- The settings that stand for a field; two keys are for the same one. -/
def slot : Setting → Setting
  | storageMaxMemory => storageMaxMemoryBytes
  | s => s

/-- The value of a setting in a configuration. -/
def valueIn (c : LoadedConfig) : Setting → SettingValue
  | serverHost => .text c.server.host
  | serverPort => .number c.server.port
  | serverWorkers => .number c.server.workers
  | serverMaxClients => .number c.server.maxClients
  | storageShards => .number c.storage.shards
  | storageMaxMemory => .number c.storage.maxMemoryBytes
  | storageMaxMemoryBytes => .number c.storage.maxMemoryBytes
  | persistenceAofEnabled => .flag c.persistence.aofEnabled
  | persistenceAofPath => .text c.persistence.aofPath
  | persistenceFsyncPolicy => .text c.persistence.fsyncPolicy
  | persistenceSnapshotPath => .text c.persistence.snapshotPath
  | persistenceManifestPath => .text c.persistence.manifestPath
  | expirationActiveEnabled => .flag c.expiration.activeEnabled
  | expirationIntervalMs => .number c.expiration.intervalMs
  | expirationSamplePerShard => .number c.expiration.samplePerShard
  | loggingLevel => .text c.loggingLevel
  | metricsEnabled => .flag c.metricsEnabled
  | adminShutdownEnabled => .flag c.admin.shutdownEnabled
  | protocolMaxRequestBytes => .number c.protocol.maxRequestBytes
  | protocolMaxArrayElements => .number c.protocol.maxArrayElements
  | protocolMaxKeySize => .number c.protocol.maxKeySize
  | protocolMaxValueSize => .number c.protocol.maxValueSize
  | protocolMaxOutputBufferBytes => .number c.protocol.maxOutputBufferBytes

/-- What a text means as the value of a setting, if it is accepted. -/
def meaning (value : Bytes) : Setting → Option SettingValue
  | serverHost | persistenceAofPath | persistenceSnapshotPath | persistenceManifestPath =>
    some (.text value)
  | serverPort => (parseU16 value).map .number
  | serverWorkers | serverMaxClients | storageShards | storageMaxMemoryBytes
  | expirationSamplePerShard | protocolMaxArrayElements => (parseSize value).map .number
  | storageMaxMemory | protocolMaxRequestBytes | protocolMaxKeySize | protocolMaxValueSize
  | protocolMaxOutputBufferBytes => (parseByteSize value).map .number
  | persistenceAofEnabled | expirationActiveEnabled | metricsEnabled | adminShutdownEnabled =>
    (parseBool value).map .flag
  | persistenceFsyncPolicy => (parseFsyncPolicy value).map .text
  | expirationIntervalMs => (parseU64 value).map .number
  | loggingLevel => some (.text (toLowerAscii value))

/-- The three settings that are at least one: `load` does not leave a zero. -/
def raised : Setting → SettingValue → SettingValue
  | serverWorkers, .number 0 => .number 1
  | storageShards, .number 0 => .number 1
  | expirationIntervalMs, .number 0 => .number 1
  | _, x => x

/-- What an assignment does to a setting. -/
def given (s : Setting) (assignment : Bytes × Bytes) : Option SettingValue :=
  match ofKey assignment.1 with
  | none => none
  | some s' => if s'.slot = s.slot then meaning (stripQuotes assignment.2) s' else none

end Setting

namespace ConfigLoader

open Setting

/-- A setting that is stored was parsed. -/
theorem setParsed_ok {α : Type} {parse : Bytes → Option α} {message : Bytes}
    {store : α → LoadedConfig} {value : Bytes} {c : LoadedConfig}
    (h : setParsed parse message store value = .ok c) : ∃ a, parse value = some a ∧ c = store a := by
  rw [setParsed] at h
  split at h
  · cases h
  · next a ha =>
    cases h
    exact ⟨a, ha, rfl⟩

/-- **One assignment** gives its setting the meaning of the text and leaves the others. -/
theorem read_assign {c c' : LoadedConfig} {value : Bytes} {s : Setting}
    (h : assign c value s = .ok c') :
    ∃ x, meaning value s = some x ∧ ∀ s', valueIn c' s' = if s.slot = s'.slot then x else valueIn c s' := by
  cases s with
  | serverHost | persistenceAofPath | persistenceSnapshotPath | persistenceManifestPath
  | loggingLevel =>
    cases h
    exact ⟨_, rfl, fun s' => by cases s' <;> rfl⟩
  | serverPort | serverWorkers | serverMaxClients | storageShards | storageMaxMemory
  | storageMaxMemoryBytes | persistenceAofEnabled | persistenceFsyncPolicy
  | expirationActiveEnabled | expirationIntervalMs | expirationSamplePerShard | metricsEnabled
  | adminShutdownEnabled | protocolMaxRequestBytes | protocolMaxArrayElements | protocolMaxKeySize
  | protocolMaxValueSize | protocolMaxOutputBufferBytes =>
    obtain ⟨a, ha, rfl⟩ := setParsed_ok h
    exact ⟨_, by rw [meaning, ha]; rfl, fun s' => by cases s' <;> rfl⟩

/-! ## Assignments -/

/-- `apply_kv` on an assignment. -/
def applyPair (c : LoadedConfig) (assignment : Bytes × Bytes) : Except Status LoadedConfig :=
  applyKv c assignment.1 assignment.2

/-- An assignment that is accepted changes the setting that its key names, and no other. -/
theorem read_applyPair {c c' : LoadedConfig} {assignment : Bytes × Bytes}
    (h : applyPair c assignment = .ok c') (s : Setting) :
    valueIn c' s = (given s assignment).getD (valueIn c s) := by
  rw [applyPair, applyKv] at h
  rw [given]
  split at h
  · next s' hs' =>
    obtain ⟨x, hx, hread⟩ := read_assign h
    rw [hs', hread s]
    simp only [hx]
    split_ifs <;> rfl
  · cases h

/-- The assignments of the lines of a file, in a section. -/
def fileAssignments : Bytes → List Bytes → List (Bytes × Bytes)
  | _, [] => []
  | header, line :: rest =>
    match readLine line with
    | .blank | .malformed => fileAssignments header rest
    | .header name => fileAssignments name rest
    | .assignment key value => (qualified header key, value) :: fileAssignments header rest

/-- The assignments of the variables that are set. -/
def envAssignments (getenv : Bytes → Option Bytes) : List (Bytes × Setting) → List (Bytes × Bytes)
  | [] => []
  | (env, s) :: rest =>
    match getenv env with
    | none => envAssignments getenv rest
    | some value => (s.key, value) :: envAssignments getenv rest

/-- The assignment of an option. -/
def optionAssignment (name value : Bytes) : List (Bytes × Bytes) :=
  ((aliases.find? fun p => p.1 = name).map fun p => (p.2.key, value)).toList

/-- The assignments of the arguments. -/
def argAssignments : List Bytes → List (Bytes × Bytes)
  | [] => []
  | arg :: rest =>
    if arg = ascii "--config" then
      match rest with
      | [] => []
      | _ :: rest => argAssignments rest
    else if (ascii "--config=").isPrefixOf arg then argAssignments rest
    else
      let (before, after) := arg.span (· ≠ 61)
      if after ≠ [] then optionAssignment (before.drop 2) (after.drop 1) ++ argAssignments rest
      else
        match rest with
        | [] => []
        | value :: rest => optionAssignment (arg.drop 2) value ++ argAssignments rest

/-- A file that loads is its assignments, in order. -/
theorem foldlM_loadLines {lines : List Bytes} {header : Bytes} {number : ℕ} {c c' : LoadedConfig}
    (h : loadLines lines header number c = .ok c') :
    (fileAssignments header lines).foldlM applyPair c = .ok c' := by
  induction lines generalizing header number c with
  | nil => exact h
  | cons line rest ih =>
    rw [loadLines] at h
    rw [fileAssignments]
    cases hline : readLine line with
    | blank =>
      rw [hline] at h
      exact ih h
    | header name =>
      rw [hline] at h
      exact ih h
    | malformed =>
      rw [hline] at h
      cases h
    | assignment key value =>
      rw [hline] at h
      simp only at h ⊢
      rw [List.foldlM_cons, applyPair]
      cases hkv : applyKv c (qualified header key) value with
      | error status =>
        rw [hkv] at h
        cases h
      | ok c₁ =>
        rw [hkv] at h
        exact ih h

/-- An environment that is accepted is its assignments, in order. -/
theorem foldlM_applyEnvEntries {getenv : Bytes → Option Bytes} {entries : List (Bytes × Setting)}
    {c c' : LoadedConfig} (h : applyEnvEntries getenv entries c = .ok c') :
    (envAssignments getenv entries).foldlM applyPair c = .ok c' := by
  induction entries generalizing c with
  | nil => exact h
  | cons entry rest ih =>
    obtain ⟨env, s⟩ := entry
    rw [applyEnvEntries] at h
    rw [envAssignments]
    cases hvalue : getenv env with
    | none =>
      rw [hvalue] at h
      exact ih h
    | some value =>
      rw [hvalue] at h
      simp only at h ⊢
      rw [List.foldlM_cons, applyPair]
      cases hkv : applyKv c s.key value with
      | error status =>
        rw [hkv] at h
        cases h
      | ok c₁ =>
        rw [hkv] at h
        exact ih h

/-- An option is an assignment to the setting that it is an alias of. -/
theorem foldlM_applyCliPair {c c₁ c' : LoadedConfig} {name value : Bytes} {l : List (Bytes × Bytes)}
    (h : applyCliPair c name value = .ok c₁) (hl : l.foldlM applyPair c₁ = .ok c') :
    (optionAssignment name value ++ l).foldlM applyPair c = .ok c' := by
  rw [applyCliPair] at h
  rw [optionAssignment]
  split at h
  · cases h
  · next env s hfind =>
    rw [hfind]
    show (((s.key, value) :: l).foldlM applyPair c) = .ok c'
    rw [List.foldlM_cons, applyPair, h]
    exact hl

/-- A command line that is accepted is its assignments, in order. -/
theorem foldlM_applyArgs {args : List Bytes} {c c' : LoadedConfig} (h : applyArgs args c = .ok c') :
    (argAssignments args).foldlM applyPair c = .ok c' := by
  fun_induction applyArgs args c with
  | case1 => exact h
  | case2 =>
    rw [argAssignments.eq_def]
    simp only [if_true]
    exact h
  | case3 c path rest ih =>
    rw [argAssignments.eq_def]
    simp only [if_true]
    exact ih h
  | case4 arg rest c hconfig hprefix ih =>
    rw [argAssignments.eq_def]
    simp only [if_neg hconfig, if_pos hprefix]
    exact ih h
  | case7 arg rest c hconfig hprefix _ key value hspan hvalue c₁ hpair ih =>
    rw [argAssignments.eq_def]
    simp only [if_neg hconfig, if_neg hprefix, hspan]
    simp only [if_pos hvalue]
    exact foldlM_applyCliPair hpair (ih h)
  | case10 arg c hconfig hprefix _ key value hspan hvalue text rest c₁ hpair ih =>
    rw [argAssignments.eq_def]
    simp only [if_neg hconfig, if_neg hprefix, hspan]
    simp only [if_neg hvalue]
    exact foldlM_applyCliPair hpair (ih h)
  | _ => cases h

/-! ## Layers -/

/-- The file that the arguments name, if any. -/
def configPath (args : List Bytes) : Bytes :=
  match scanArgs args [] with
  | .path path => path
  | _ => []

/-- The lines of the file that a load reads, none if there is no path. -/
def configLines (sur : Surroundings) (path : Bytes) : List Bytes :=
  if path = [] then [] else ((sur.readFile path).map lines).getD []

/-- All assignments of a load, in their order. -/
def assignments (sur : Surroundings) (path : Bytes) (args : List Bytes) : List (Bytes × Bytes) :=
  fileAssignments [] (configLines sur path) ++ envAssignments sur.getenv envEntries ++
    argAssignments args

/-- Two steps succeed if both do. -/
theorem bind_eq_ok {ε α β : Type} {x : Except ε α} {f : α → Except ε β} {b : β}
    (h : x >>= f = .ok b) : ∃ a, x = .ok a ∧ f a = .ok b := by
  cases x with
  | error e => cases h
  | ok a => exact ⟨a, rfl, h⟩

/-- Without the last step of `load`, a configuration is its assignments. -/
theorem foldlM_applyLayers {sur : Surroundings} {path : Bytes} {args : List Bytes} {c : LoadedConfig}
    (h : applyLayers sur path args = .ok c) :
    (assignments sur path args).foldlM applyPair {} = .ok c := by
  rw [applyLayers] at h
  obtain ⟨c₁, hfile, h⟩ := bind_eq_ok h
  obtain ⟨c₂, henv, hargs⟩ := bind_eq_ok h
  have hfirst : (fileAssignments [] (configLines sur path)).foldlM applyPair {} = .ok c₁ := by
    rw [fileLayer] at hfile
    rw [configLines]
    split_ifs at hfile ⊢ with hpath
    · exact hfile
    · rw [loadFile] at hfile
      split at hfile
      · cases hfile
      · next content hread =>
        rw [hread]
        exact foldlM_loadLines hfile
  rw [assignments, List.foldlM_append, List.foldlM_append, hfirst]
  show ((envAssignments sur.getenv envEntries).foldlM applyPair c₁ >>= _) = _
  rw [foldlM_applyEnvEntries henv]
  exact foldlM_applyArgs hargs

/-- The counts that must not be 0 are raised to 1. -/
theorem read_atLeastOne (c : LoadedConfig) (s : Setting) :
    valueIn (atLeastOne c) s = raised s (valueIn c s) := by
  cases s with
  | serverWorkers =>
    show SettingValue.number (if c.server.workers = 0 then 1 else c.server.workers) = _
    rw [valueIn]
    cases c.server.workers <;> rfl
  | storageShards =>
    show SettingValue.number (if c.storage.shards = 0 then 1 else c.storage.shards) = _
    rw [valueIn]
    cases c.storage.shards <;> rfl
  | expirationIntervalMs =>
    show SettingValue.number (if c.expiration.intervalMs = 0 then 1 else c.expiration.intervalMs) = _
    rw [valueIn]
    cases c.expiration.intervalMs <;> rfl
  | _ => rfl

/-- After any accepted assignments a setting has the value of the last assignment to it. -/
theorem valueIn_of_load {sur : Surroundings} {args : List Bytes} {c : LoadedConfig}
    (h : load sur args = .loaded c) (s : Setting) :
    valueIn c s = raised s
      ((lastWrite (given s) (assignments sur (configPath args) args)).getD (valueIn {} s)) := by
  rw [load] at h
  rw [configPath]
  split at h
  · cases h
  · cases h
  · next path hscan =>
    split at h
    · cases h
    · next c₀ hlayers =>
      cases h
      have hstep : ∀ c a c', applyPair c a = .ok c' →
          valueIn c' s = (given s a).getD (valueIn c s) := fun c a c' hc => read_applyPair hc s
      rw [read_atLeastOne, hscan]
      exact congrArg (raised s)
        (read_foldlM (g := fun c => valueIn c s) hstep (foldlM_applyLayers hlayers))

/-- **Precedence.** In a configuration that was loaded, every setting has the value of the last
assignment to it on the command line, or else in the environment, or else in the file, or else its
default; only a zero where there must be one is raised. -/
theorem loaded_by_precedence {sur : Surroundings} {args : List Bytes} {c : LoadedConfig}
    (h : load sur args = .loaded c) (s : Setting) :
    valueIn c s = raised s
      ((((lastWrite (given s) (argAssignments args)).or
        (lastWrite (given s) (envAssignments sur.getenv envEntries))).or
        (lastWrite (given s) (fileAssignments [] (configLines sur (configPath args))))).getD
        (valueIn {} s)) := by
  rw [valueIn_of_load h s, assignments, lastWrite_append, lastWrite_append, Option.or_assoc]

/-- A file, an environment and a command line that all have something to say. -/
def layered : Surroundings where
  getenv name :=
    if name = ascii "VELOXDB_PORT" then some (ascii "10")
    else if name = ascii "VELOXDB_WORKERS" then some (ascii " 20 ")
    else none
  readFile _ := some (ascii "[server] # limits\nport = 1\nworkers=2\nmax_clients = \"3\"\n")

/-- A command line that names a file and overrides it. -/
def layeredArgs : List Bytes := [ascii "--config=a.toml", ascii "--port", ascii "100"]

/-- The three layers, one over the other. -/
theorem layered_loaded : load layered layeredArgs =
    .loaded { server := { port := 100, workers := 20, maxClients := 3 } } := by decide +kernel

/-- The port is from the command line, the workers are from the environment, and the number of
clients is from the file. -/
theorem layered_by_precedence :
    ∃ c, load layered layeredArgs = .loaded c ∧ valueIn c .serverPort = .number 100 ∧
      valueIn c .serverWorkers = .number 20 ∧ valueIn c .serverMaxClients = .number 3 := by
  refine ⟨_, layered_loaded, ?_, ?_, ?_⟩ <;> rw [loaded_by_precedence layered_loaded] <;>
    decide +kernel

/-! ## Ranges -/

/-- The values that a setting can have. -/
def Admits : Setting → SettingValue → Prop
  | .serverPort, .number n => n < 2 ^ 16
  | .persistenceFsyncPolicy, .text t => t = ascii "always" ∨ t = ascii "everysec" ∨ t = ascii "no"
  | .loggingLevel, .text t => toLowerAscii t = t
  | _, .number n => n < 2 ^ 64
  | _, _ => True

/-- A parsed number has 64 bits. -/
theorem parseU64_lt {value : Bytes} {n : ℕ} (h : parseU64 value = some n) : n < 2 ^ 64 := by
  rw [parseU64] at h
  split_ifs at h
  split at h
  · next v hfrom =>
    cases h
    rw [fromCharsU64] at hfrom
    split at hfrom
    split_ifs at hfrom with hbad
    cases hfrom
    simp only [uint64Max, not_or, not_lt] at hbad
    omega
  · cases h

/-- A parsed size has 64 bits. -/
theorem parseByteSize_lt {value : Bytes} {n : ℕ} (h : parseByteSize value = some n) : n < 2 ^ 64 := by
  rw [parseByteSize] at h
  split_ifs at h
  split at h
  · cases h
  · next parsed _ =>
    split_ifs at h with hlarge
    cases h
    have hle : parsed * (stripSuffix (toLowerAscii (trim value))).2 ≤ uint64Max :=
      (Nat.mul_le_mul_right _ (Nat.le_of_not_lt hlarge)).trans (Nat.div_mul_le_self _ _)
    simp only [uint64Max] at hle
    omega

/-- A bounded number is parsed and within its bound. -/
theorem filter_parseU64 {value : Bytes} {n bound : ℕ}
    (h : (parseU64 value).filter (· ≤ bound) = some n) : parseU64 value = some n ∧ n ≤ bound := by
  obtain ⟨hn, hle⟩ := Option.filter_eq_some_iff.mp h
  exact ⟨hn, of_decide_eq_true hle⟩

/-- Folding twice folds once. -/
theorem toLowerAscii_idem (t : Bytes) : toLowerAscii (toLowerAscii t) = toLowerAscii t := by
  have hbyte : ∀ b : UInt8, toLower (toLower b) = toLower b := by
    intro b
    by_cases hupper : (65 ≤ b.toNat && b.toNat ≤ 90) = true
    · have hlow : toLower b = b + 32 := if_pos hupper
      have hnat : (b + 32).toNat = b.toNat + 32 := by
        simp only [Bool.and_eq_true, decide_eq_true_eq] at hupper
        rw [UInt8.toNat_add]
        exact Nat.mod_eq_of_lt (by show b.toNat + 32 < 256; omega)
      rw [hlow, toLower, if_neg]
      simp only [Bool.and_eq_true, decide_eq_true_eq] at hupper ⊢
      omega
    · have hlow : toLower b = b := if_neg hupper
      rw [hlow, hlow]
  simp only [toLowerAscii, List.map_map]
  exact List.map_congr_left fun b _ => hbyte b

/-- What is parsed for a setting is admitted. -/
theorem admits_meaning {value : Bytes} {s : Setting} {x : SettingValue}
    (h : meaning value s = some x) : Admits s x := by
  cases s with
  | serverHost | persistenceAofPath | persistenceSnapshotPath | persistenceManifestPath =>
    cases h
    trivial
  | loggingLevel =>
    cases h
    exact toLowerAscii_idem value
  | persistenceAofEnabled | expirationActiveEnabled | metricsEnabled | adminShutdownEnabled =>
    obtain ⟨b, -, rfl⟩ := Option.map_eq_some_iff.mp h
    trivial
  | serverPort =>
    obtain ⟨n, hn, rfl⟩ := Option.map_eq_some_iff.mp h
    have hle := (filter_parseU64 hn).2
    show n < 2 ^ 16
    omega
  | persistenceFsyncPolicy =>
    obtain ⟨t, ht, rfl⟩ := Option.map_eq_some_iff.mp h
    rw [parseFsyncPolicy] at ht
    split_ifs at ht with hbad
    cases ht
    show _ ∨ _ ∨ _
    by_contra hnone
    exact hbad (by simpa only [not_or] using hnone)
  | serverWorkers | serverMaxClients | storageShards | storageMaxMemoryBytes
  | expirationSamplePerShard | protocolMaxArrayElements =>
    obtain ⟨n, hn, rfl⟩ := Option.map_eq_some_iff.mp h
    exact parseU64_lt (filter_parseU64 hn).1
  | storageMaxMemory | protocolMaxRequestBytes | protocolMaxKeySize | protocolMaxValueSize
  | protocolMaxOutputBufferBytes =>
    obtain ⟨n, hn, rfl⟩ := Option.map_eq_some_iff.mp h
    exact parseByteSize_lt hn
  | expirationIntervalMs =>
    obtain ⟨n, hn, rfl⟩ := Option.map_eq_some_iff.mp h
    exact parseU64_lt hn

/-- Every default is admitted. -/
theorem admits_default (s : Setting) : Admits s (valueIn {} s) := by
  cases s with
  | persistenceFsyncPolicy => exact .inr (.inl rfl)
  | loggingLevel =>
    show _ = _
    decide
  | serverPort | serverWorkers | serverMaxClients | storageShards | storageMaxMemory
  | storageMaxMemoryBytes | expirationIntervalMs | expirationSamplePerShard
  | protocolMaxRequestBytes | protocolMaxArrayElements | protocolMaxKeySize | protocolMaxValueSize
  | protocolMaxOutputBufferBytes =>
    show _ < _
    decide
  | _ => trivial

/-- What an assignment gives is admitted. -/
theorem admits_given {assignment : Bytes × Bytes} {s : Setting} {x : SettingValue}
    (h : given s assignment = some x) : Admits s x := by
  rw [given] at h
  split at h
  · cases h
  · next s' _ =>
    split_ifs at h with hslot
    have hadmits := admits_meaning h
    -- the two keys of one field admit the same
    cases s' <;> cases s <;> first
      | exact hadmits
      | (cases hslot <;> cases x <;> exact hadmits)

/-- What is raised to 1 is admitted. -/
theorem admits_raised {s : Setting} {x : SettingValue} (h : Admits s x) : Admits s (raised s x) := by
  rw [raised.eq_def]
  split <;> first | exact h | (show _ < _; decide)

section Loaded

variable {sur : Surroundings} {args : List Bytes} {c : LoadedConfig}

/-- **Whatever loads is admitted**, setting by setting. -/
theorem admits_of_load (h : load sur args = .loaded c) (s : Setting) : Admits s (valueIn c s) := by
  rw [valueIn_of_load h s]
  apply admits_raised
  cases hlast : lastWrite (given s) _ with
  | none => exact admits_default s
  | some x =>
    obtain ⟨assignment, -, hgiven⟩ := exists_of_lastWrite hlast
    exact admits_given hgiven

/-- No zero is left where there must be one. -/
theorem atLeastOne_of_load (h : load sur args = .loaded c) : atLeastOne c = c := by
  rw [load] at h
  split at h
  · cases h
  · cases h
  · split at h
    · cases h
    · next c₀ _ =>
      cases h
      obtain ⟨⟨⟨_, _, workers, _⟩, ⟨shards, _⟩, _, ⟨_, intervalMs, _⟩, _, _⟩, _, _⟩ := c₀
      cases workers <;> cases shards <;> cases intervalMs <;> rfl

/-- **Ranges.** In a configuration that was loaded, the port fits 16 bits and every other number 64,
there is at least one worker, one shard and one millisecond between rounds of expiration, and the
fsync policy is one of the three. -/
theorem loaded_in_range (h : load sur args = .loaded c) :
    c.server.port < 2 ^ 16 ∧ 0 < c.server.workers ∧ 0 < c.storage.shards ∧
      0 < c.expiration.intervalMs ∧
      (c.persistence.fsyncPolicy = ascii "always" ∨ c.persistence.fsyncPolicy = ascii "everysec" ∨
        c.persistence.fsyncPolicy = ascii "no") ∧
      ∀ s n, valueIn c s = .number n → n < 2 ^ 64 := by
  have hpos : ∀ n : ℕ, 0 < if n = 0 then 1 else n := by
    intro n
    cases n <;> exact Nat.succ_pos _
  have hone := atLeastOne_of_load h
  refine ⟨admits_of_load h .serverPort, ?_, ?_, ?_, admits_of_load h .persistenceFsyncPolicy,
    fun s n hn => ?_⟩
  · rw [← hone]
    exact hpos c.server.workers
  · rw [← hone]
    exact hpos c.storage.shards
  · rw [← hone]
    exact hpos c.expiration.intervalMs
  · have hs := admits_of_load h s
    rw [hn] at hs
    cases s with
    | serverPort => exact Nat.lt_trans hs (by decide)
    | persistenceFsyncPolicy => cases hn
    | loggingLevel => cases hn
    | _ => exact hs

end Loaded

/-- The port of `layered` is in its range, and so is the policy. -/
theorem layered_in_range :
    ∃ c, load layered layeredArgs = .loaded c ∧ c.server.port < 2 ^ 16 ∧
      (c.persistence.fsyncPolicy = ascii "always" ∨ c.persistence.fsyncPolicy = ascii "everysec" ∨
        c.persistence.fsyncPolicy = ascii "no") := by
  obtain ⟨hport, -, -, -, hpolicy, -⟩ := loaded_in_range layered_loaded
  exact ⟨_, layered_loaded, hport, hpolicy⟩

/-! ## Refusals -/

/-- How a line is refused, by its number. -/
def Refused (c : LoadedConfig) (header line : Bytes) (number : ℕ) (status : Status) : Prop :=
  (readLine line = .malformed ∧
    status = .invalidArgument (ascii "invalid config line " ++ print number)) ∨
  ∃ key value reason, readLine line = .assignment key value ∧
    applyKv c (qualified header key) value = .error reason ∧
    status = .invalidArgument
      (ascii "config line " ++ print number ++ ascii ": " ++ reason.message)

/-- The section that the last header has opened. -/
def lastHeader : Bytes → List Bytes → Bytes
  | header, [] => header
  | header, line :: rest =>
    match readLine line with
    | .header name => lastHeader name rest
    | _ => lastHeader header rest

/-- **The first bad line.** A file that is refused is refused for one of its lines: the lines before
it are accepted, and the message has its number. -/
theorem refused_at_first_bad_line (lines : List Bytes) (header : Bytes) (number : ℕ)
    (c : LoadedConfig) (status : Status) (h : loadLines lines header number c = .error status) :
    ∃ before line after c₁, lines = before ++ line :: after ∧
      loadLines before header number c = .ok c₁ ∧
      Refused c₁ (lastHeader header before) line (number + before.length) status := by
  induction lines generalizing header number c with
  | nil => cases h
  | cons line rest ih =>
    -- a line that is accepted stands in front of those before the bad one
    have hgo : ∀ header' c', loadLines rest header' (number + 1) c' = .error status →
        (∀ before, loadLines (line :: before) header number c =
          loadLines before header' (number + 1) c') →
        (∀ before, lastHeader header (line :: before) = lastHeader header' before) →
        ∃ before bad after c₁, line :: rest = before ++ bad :: after ∧
          loadLines before header number c = .ok c₁ ∧
          Refused c₁ (lastHeader header before) bad (number + before.length) status := by
      intro header' c' hrest hload hlast
      obtain ⟨before, bad, after, c₁, rfl, hbefore, hbad⟩ := ih header' (number + 1) c' hrest
      refine ⟨line :: before, bad, after, c₁, rfl, (hload before).trans hbefore, ?_⟩
      rw [hlast before, List.length_cons]
      have hnumber : number + (before.length + 1) = number + 1 + before.length := by omega
      rwa [hnumber]
    rw [loadLines] at h
    cases hline : readLine line with
    | blank =>
      rw [hline] at h
      refine hgo header c h (fun before => ?_) fun before => ?_
      · rw [loadLines, hline]
      · rw [lastHeader, hline]
    | header name =>
      rw [hline] at h
      refine hgo name c h (fun before => ?_) fun before => ?_
      · rw [loadLines, hline]
      · rw [lastHeader, hline]
    | malformed =>
      rw [hline] at h
      cases h
      exact ⟨[], line, rest, c, rfl, rfl, .inl ⟨hline, rfl⟩⟩
    | assignment key value =>
      rw [hline] at h
      simp only at h
      cases hkv : applyKv c (qualified header key) value with
      | error reason =>
        rw [hkv] at h
        cases h
        exact ⟨[], line, rest, c, rfl, rfl, .inr ⟨key, value, reason, hline, hkv, rfl⟩⟩
      | ok c₁ =>
        rw [hkv] at h
        refine hgo header c₁ h (fun before => ?_) fun before => ?_
        · rw [loadLines, hline]
          simp only [hkv]
        · rw [lastHeader, hline]

/-- A port that is too large, in the third line. -/
theorem refused_port :
    ∃ before line after c₁, [ascii "[server]", ascii "workers = 8", ascii "port = 65536"] =
        before ++ line :: after ∧
      loadLines before [] 1 {} = .ok c₁ ∧
      Refused c₁ (lastHeader [] before) line (1 + before.length)
        (.invalidArgument (ascii "config line 3: invalid uint16 value for server.port")) :=
  refused_at_first_bad_line _ [] 1 {} _ (by decide +kernel)

end ConfigLoader

end VeloxDb
