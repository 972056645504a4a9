import Mathlib.Data.List.DropRight
import Mathlib.Data.List.TakeWhile
import Piecework.Proofs.Decimal.Numeral
import Piecework.Settings

/-!
# What can be set

A variable counts by what it says: its text without the white space around it, which is nothing
when it is blank or not set at all.  Numbers and addresses depend on no more than that
(`OperationTimes.ofVariables_congr`, `AgentSettings.ofVariables_congr`).

Of each kind of settings it is told which ones can be made.  Any times of operations can
(`OperationTimes.ofVariables_pairs`).  A server has a database path that is not blank, always a
worker for the passes, and the attempts and the pause between them that nothing can change
(`ServerSettings.exists_variables_iff`).  A worker process has an address to which a path can be
appended, and always one worker (`AgentSettings.exists_variables_iff`).

That settings can be made is shown by writing them down (`pairs`) and reading them back.
-/

namespace Piecework

open Decimal (Digital digital_cons digits?_eq_some_iff)

/-! ## Numbers -/

namespace Text

/-- The text is the number in digits, perhaps with a plus sign in front. -/
def Spells (n : Nat) (cs : List Char) : Prop :=
  ∃ ds, (cs = ds ∨ cs = '+' :: ds) ∧ Digital ds ∧ ds ≠ [] ∧ Nat.ofDigitChars 10 ds 0 = n

theorem natural?_eq_some_iff {bound n : Nat} {cs : List Char} :
    natural? bound cs = some n ↔ Spells n cs ∧ n < bound := by
  have hfilter : ∀ value? : Option Nat,
      value?.filter (· < bound) = some n ↔ value? = some n ∧ n < bound := by
    simp [Option.filter_eq_some_iff]
  unfold natural?
  dsimp only
  rw [hfilter]
  refine and_congr_left fun _ => ?_
  split
  · rename_i rest
    rw [digits?_eq_some_iff]
    constructor
    · exact fun h => ⟨rest, .inr rfl, h⟩
    · rintro ⟨ds, rfl | h, hds⟩
      · exact absurd (digital_cons.1 hds.1).1 (by decide)
      · exact (List.cons.inj h).2 ▸ hds
  · rename_i hplus
    rw [digits?_eq_some_iff]
    constructor
    · exact fun h => ⟨cs, .inl rfl, h⟩
    · rintro ⟨ds, rfl | rfl, hds⟩
      · exact hds
      · exact absurd rfl (hplus ds)

theorem digital_toString (n : Nat) : Digital (toString n).toList := by
  rw [Nat.toString_eq_ofList_toDigits, String.toList_ofList]
  exact fun _ hc => Nat.isDigit_of_mem_toDigits (by decide) (by decide) hc

theorem spells_toString (n : Nat) : Spells n (toString n).toList := by
  refine ⟨_, .inl rfl, digital_toString n, ?_⟩
  rw [Nat.toString_eq_ofList_toDigits, String.toList_ofList]
  exact ⟨Nat.toDigits_ne_nil, Nat.ofDigitChars_ten_toDigits⟩

theorem isBlank_of_isDigit {c : Char} (h : c.isDigit = true) : isBlank c = false := by
  have hrange : 48 ≤ c.toNat ∧ c.toNat ≤ 57 := by
    simpa [Char.isDigit, UInt32.le_iff_toNat_le] using h
  simp only [isBlank, Bool.or_eq_false_iff, Bool.and_eq_false_imp, decide_eq_true_eq,
    decide_eq_false_iff_not, beq_eq_false_iff_ne]
  omega

/-! ## Trimming -/

variable {cs : List Char}

theorem trim_eq (cs : List Char) : trim cs = (cs.dropWhile isBlank).rdropWhile isBlank := rfl

/-- Trimming leaves nothing of a blank text, and of no other. -/
theorem trim_eq_nil_iff : trim cs = [] ↔ allBlank cs = true := by
  rw [trim_eq, List.rdropWhile_eq_nil_iff, allBlank, List.all_eq_true]
  constructor
  · intro h c hc
    rw [← List.takeWhile_append_dropWhile (p := isBlank) (l := cs)] at hc
    rcases List.mem_append.1 hc with hc | hc
    · exact List.mem_takeWhile_imp hc
    · exact h c hc
  · exact fun h c hc => h c ((List.dropWhile_suffix isBlank).subset hc)

theorem head?_of_rdropWhile {p : Char → Bool} {c : Char} (h : (cs.rdropWhile p).head? = some c) :
    cs.head? = some c := by
  obtain ⟨rest, hrest⟩ := List.rdropWhile_prefix p cs
  rw [← hrest, List.head?_append, h, Option.some_or]

/-- A trimmed text does not begin with white space. -/
theorem head?_trim {c : Char} (h : (trim cs).head? = some c) : isBlank c = false := by
  have hhead : (cs.dropWhile isBlank).head? = some c := head?_of_rdropWhile h
  simpa [hhead] using List.head?_dropWhile_not isBlank cs

/-- A text that neither begins nor ends with white space is trimmed. -/
theorem trim_eq_self (hfirst : ∀ c, cs.head? = some c → isBlank c = false)
    (hlast : ∀ c, cs.getLast? = some c → isBlank c = false) : trim cs = cs := by
  have hdrop : cs.dropWhile isBlank = cs := by
    cases cs with
    | nil => rfl
    | cons c rest => rw [List.dropWhile_cons_of_neg (by simpa using hfirst c rfl)]
  rw [trim_eq, hdrop, List.rdropWhile_eq_self_iff]
  intro hne
  simpa using hlast _ (List.getLast?_eq_some_getLast hne)

theorem trim_toString (n : Nat) : trim (toString n).toList = (toString n).toList :=
  trim_eq_self
    (fun c hc => isBlank_of_isDigit (digital_toString n c (List.mem_of_head? hc)))
    (fun c hc => isBlank_of_isDigit (digital_toString n c (List.mem_of_getLast? hc)))

end Text

namespace Variables

variable {vars vars' : Variables} {name : String}

/-- What a variable says: its text without the white space around it. -/
def said (vars : Variables) (name : String) : List Char :=
  ((vars name).map fun raw => Text.trim raw.toList).getD []

/-- A variable says nothing when it is blank or not set. -/
theorem said_eq_nil_iff :
    vars.said name = [] ↔ ∀ raw, vars name = some raw → Text.blankText raw = true := by
  unfold said
  cases vars name with
  | none => simp
  | some raw => simp [Text.trim_eq_nil_iff, Text.blankText]

theorem head?_said {c : Char} (h : (vars.said name).head? = some c) : Text.isBlank c = false := by
  unfold said at h
  cases hset : vars name with
  | none =>
    rw [hset] at h
    cases h
  | some raw =>
    rw [hset] at h
    exact Text.head?_trim h

/-- Variables of which these are set. -/
def ofPairs (pairs : List (String × String)) : Variables := fun name => pairs.lookup name

theorem natural?_eq (vars : Variables) (bound : Nat) (name : String) :
    vars.natural? bound name = Text.natural? bound (vars.said name) := by
  unfold natural? said
  cases vars name <;> rfl

theorem word_congr (h : vars.said name = vars'.said name) (default : UInt64) :
    vars.word name default = vars'.word name default := by
  simp only [word, natural?_eq, h]

theorem count_congr (h : vars.said name = vars'.said name) (default : Nat) :
    vars.count name default = vars'.count name default := by
  simp only [count, natural?_eq, h]

theorem port_congr (h : vars.said name = vars'.said name) (default : UInt16) :
    vars.port name default = vars'.port name default := by
  simp only [port, natural?_eq, h]

theorem natural?_of_toString {bound n : Nat} (h : vars name = some (toString n)) (hn : n < bound) :
    vars.natural? bound name = some n := by
  have hsaid : vars.said name = (toString n).toList := by
    rw [said, h]
    exact Text.trim_toString n
  rw [natural?_eq, hsaid]
  exact Text.natural?_eq_some_iff.2 ⟨Text.spells_toString n, hn⟩

theorem word_of_toString {w : UInt64} (h : vars name = some (toString w.toNat))
    (default : UInt64) : vars.word name default = w := by
  rw [word, natural?_of_toString h w.toNat_lt_size]
  exact UInt64.ofNat_toNat

theorem port_of_toString {w : UInt16} (h : vars name = some (toString w.toNat))
    (default : UInt16) : vars.port name default = w := by
  rw [port, natural?_of_toString h w.toNat_lt_size]
  exact UInt16.ofNat_toNat

theorem count_of_toString {n : Nat} (h : vars name = some (toString n)) (hn : n < UInt64.size)
    (default : Nat) : vars.count name default = n := by
  rw [count, natural?_of_toString h hn]
  rfl

theorem count_lt {default : Nat} (h : default < UInt64.size) :
    vars.count name default < UInt64.size := by
  unfold count
  cases hread : vars.natural? UInt64.size name with
  | none => exact h
  | some n =>
    rw [natural?_eq] at hread
    exact (Text.natural?_eq_some_iff.1 hread).2

end Variables

/-! ## Times of operations -/

namespace OperationTimes

/-- The variables that count. -/
def names : List String :=
  ["TIME_ADDITION_MS", "TIME_SUBTRACTION_MS", "TIME_MULTIPLICATION_MS", "TIME_DIVISION_MS"]

theorem ofVariables_congr {vars vars' : Variables}
    (h : ∀ name ∈ names, vars.said name = vars'.said name) :
    ofVariables vars = ofVariables vars' := by
  simp only [names, List.forall_mem_cons] at h
  obtain ⟨hadd, hsub, hmul, hdiv, -⟩ := h
  simp only [ofVariables, Variables.word_congr hadd, Variables.word_congr hsub,
    Variables.word_congr hmul, Variables.word_congr hdiv]

/-- The settings of the variables for some times. -/
def pairs (times : OperationTimes) : List (String × String) :=
  [("TIME_ADDITION_MS", toString times.addition.toNat),
    ("TIME_SUBTRACTION_MS", toString times.subtraction.toNat),
    ("TIME_MULTIPLICATION_MS", toString times.multiplication.toNat),
    ("TIME_DIVISION_MS", toString times.division.toNat)]

/-- Any times can be set. -/
theorem ofVariables_pairs (times : OperationTimes) :
    ofVariables (.ofPairs times.pairs) = times := by
  unfold ofVariables
  congr 1
  all_goals exact Variables.word_of_toString rfl _

end OperationTimes

/-! ## A server -/

namespace ServerSettings

/-- The variables that count, besides those for the times of operations. -/
def names : List String :=
  ["CALC_HTTP_PORT", "CALC_RETRY_AFTER_SECS", "CALC_DISPATCH_WORKERS", "CALC_LOCAL_AGENTS"] ++
    OperationTimes.names

/-- Settings that a server can have. -/
structure Settable (s : ServerSettings) : Prop where
  databasePath : Text.blankText s.databasePath = false
  workers : 1 ≤ s.dispatch.workers
  workers_lt : s.dispatch.workers < UInt64.size
  dispatch : s.dispatch = { default.dispatch with workers := s.dispatch.workers }
  localAgents : s.localAgents < UInt64.size

/-- The database path that is set. -/
def path? (vars : Variables) : Option String :=
  (vars "CALC_DB_PATH").filter fun path => !Text.blankText path

theorem settable_ofVariables (vars : Variables) : (ofVariables vars).Settable where
  databasePath := by
    change Text.blankText ((path? vars).getD default.databasePath) = false
    cases hpath : path? vars with
    | none => decide
    | some path => simpa using (Option.filter_eq_some_iff.1 hpath).2
  workers := Nat.le_max_left _ _
  workers_lt := Nat.max_lt.2 ⟨by decide, Variables.count_lt (by decide)⟩
  dispatch := rfl
  localAgents := Variables.count_lt (by decide)

/-- The settings of the variables for a server. -/
def pairs (s : ServerSettings) : List (String × String) :=
  [("CALC_DB_PATH", s.databasePath), ("CALC_HTTP_PORT", toString s.port.toNat),
    ("CALC_RETRY_AFTER_SECS", toString s.retryAfter.toNat),
    ("CALC_DISPATCH_WORKERS", toString s.dispatch.workers),
    ("CALC_LOCAL_AGENTS", toString s.localAgents)] ++ s.times.pairs

theorem ofVariables_pairs {s : ServerSettings} (h : s.Settable) :
    ofVariables (.ofPairs s.pairs) = s := by
  have hpath : path? (.ofPairs s.pairs) = some s.databasePath :=
    Option.filter_eq_some_iff.2 ⟨rfl, by simpa using h.databasePath⟩
  have hport : (Variables.ofPairs s.pairs).port "CALC_HTTP_PORT" default.port = s.port :=
    Variables.port_of_toString rfl _
  have hretry : (Variables.ofPairs s.pairs).word "CALC_RETRY_AFTER_SECS" default.retryAfter =
      s.retryAfter := Variables.word_of_toString rfl _
  have hworkers : (Variables.ofPairs s.pairs).count "CALC_DISPATCH_WORKERS"
      default.dispatch.workers = s.dispatch.workers :=
    Variables.count_of_toString rfl h.workers_lt _
  have hagents : (Variables.ofPairs s.pairs).count "CALC_LOCAL_AGENTS" default.localAgents =
      s.localAgents := Variables.count_of_toString rfl h.localAgents _
  have htimes : OperationTimes.ofVariables (.ofPairs s.pairs) = s.times :=
    s.times.ofVariables_pairs
  unfold path? at hpath
  simp only [ofVariables, hpath, hport, hretry, hworkers, hagents, htimes,
    Nat.max_eq_right h.workers, ← h.dispatch, Option.getD_some]

/-- The settings that a server can be given. -/
theorem exists_variables_iff (s : ServerSettings) :
    (∃ vars, ofVariables vars = s) ↔ s.Settable := by
  constructor
  · rintro ⟨vars, rfl⟩
    exact settable_ofVariables vars
  · exact fun h => ⟨_, ofVariables_pairs h⟩

theorem ofVariables_congr {vars vars' : Variables}
    (hpath : path? vars = path? vars')
    (h : ∀ name ∈ names, vars.said name = vars'.said name) :
    ofVariables vars = ofVariables vars' := by
  have htimes := OperationTimes.ofVariables_congr fun name hname =>
    h name (List.mem_append_right _ hname)
  simp only [names, List.cons_append, List.forall_mem_cons] at h
  obtain ⟨hport, hretry, hworkers, hagents, -⟩ := h
  unfold path? at hpath
  simp only [ofVariables, hpath, htimes, Variables.port_congr hport, Variables.word_congr hretry,
    Variables.count_congr hworkers, Variables.count_congr hagents]

/-- Variables that say nothing leave the defaults in force. -/
theorem ofVariables_of_said_eq_nil {vars : Variables}
    (h : ∀ name ∈ "CALC_DB_PATH" :: names, vars.said name = []) : ofVariables vars = default := by
  obtain ⟨hpath, hnames⟩ := List.forall_mem_cons.1 h
  have hblank := Variables.said_eq_nil_iff.1 hpath
  calc ofVariables vars = ofVariables fun _ => none :=
        ofVariables_congr (Option.filter_eq_none_iff.2 (by simpa using hblank)) hnames
    _ = default := rfl

end ServerSettings

/-! ## A worker process -/

theorem trimSlashes_eq (s : String) :
    trimSlashes s = String.ofList (s.toList.rdropWhile (· == '/')) := rfl

namespace AgentSettings

/-- The variables that count. -/
def names : List String := ["CALC_ORCHESTRATOR_URL", "COMPUTING_POWER"]

/-- Settings that a worker process can have. -/
structure Settable (s : AgentSettings) : Prop where
  serverUrl : s.serverUrl ≠ ""
  head : ∀ c, s.serverUrl.toList.head? = some c → Text.isBlank c = false
  last : s.serverUrl.toList.getLast? ≠ some '/'
  power : 1 ≤ s.power
  power_lt : s.power < UInt64.size
  errorBackoff : s.errorBackoff = default.errorBackoff

/-- The address in a variable, without the slashes at its end. -/
def address (vars : Variables) : List Char :=
  (vars.said "CALC_ORCHESTRATOR_URL").rdropWhile (· == '/')

theorem ofVariables_eq (vars : Variables) :
    ofVariables vars =
      ⟨if address vars = [] then default.serverUrl else String.ofList (address vars),
        max 1 (vars.count "COMPUTING_POWER" default.power), default.errorBackoff⟩ := by
  unfold ofVariables address Variables.said
  congr 1
  cases vars "CALC_ORCHESTRATOR_URL" with
  | none => rfl
  | some raw =>
    simp only [Option.map_some, Option.getD_some, trimSlashes_eq, Text.trimText,
      String.toList_ofList]
    cases (Text.trim raw.toList).rdropWhile (· == '/') with
    | nil => rfl
    | cons c rest =>
      have hne : (String.ofList (c :: rest)).isEmpty = false := by
        simp [String.isEmpty_eq_false_iff]
      rw [Option.filter_some, hne, if_neg (List.cons_ne_nil c rest)]
      rfl

theorem settable_ofVariables (vars : Variables) : (ofVariables vars).Settable := by
  rw [ofVariables_eq]
  refine ⟨?_, fun c hc => ?_, fun hlast => ?_, Nat.le_max_left _ _,
    Nat.max_lt.2 ⟨by decide, Variables.count_lt (by decide)⟩, rfl⟩
  · split_ifs with hempty
    · exact show default.serverUrl ≠ "" by decide
    · simpa using hempty
  · split_ifs at hc with hempty
    · have hfirst : default.serverUrl.toList.head? = some 'h' := by decide +kernel
      cases hfirst.symm.trans hc
      decide
    · rw [String.toList_ofList] at hc
      exact Variables.head?_said (Text.head?_of_rdropWhile hc)
  · split_ifs at hlast with hempty
    · have hdefault : default.serverUrl.toList.getLast? ≠ some '/' := by decide +kernel
      exact hdefault hlast
    · rw [String.toList_ofList, List.getLast?_eq_some_getLast hempty] at hlast
      have hslash : (address vars).getLast hempty = '/' := Option.some.inj hlast
      exact List.rdropWhile_last_not (· == '/') _ hempty (beq_iff_eq.2 hslash)

/-- The settings of the variables for a worker process.  With a slash at its end the address has
no white space around it. -/
def pairs (s : AgentSettings) : List (String × String) :=
  [("CALC_ORCHESTRATOR_URL", s.serverUrl ++ "/"), ("COMPUTING_POWER", toString s.power)]

theorem address_pairs {s : AgentSettings} (h : s.Settable) :
    address (.ofPairs s.pairs) = s.serverUrl.toList := by
  have hne : s.serverUrl.toList ≠ [] := by simpa using h.serverUrl
  have hsaid : (Variables.ofPairs s.pairs).said "CALC_ORCHESTRATOR_URL" =
      s.serverUrl.toList ++ ['/'] := by
    change Text.trim (s.serverUrl ++ "/").toList = _
    rw [String.toList_append]
    refine Text.trim_eq_self (fun c hc => h.head c ?_) (fun c hc => ?_)
    · rwa [List.head?_append_of_ne_nil _ hne] at hc
    · have hslash : c = '/' := by simpa using hc.symm
      rw [hslash]
      decide
  rw [address, hsaid, List.rdropWhile_concat_pos _ _ _ rfl, List.rdropWhile_eq_self_iff]
  intro _ hlast
  exact h.last (by rw [List.getLast?_eq_some_getLast hne, beq_iff_eq.1 hlast])

theorem ofVariables_pairs {s : AgentSettings} (h : s.Settable) :
    ofVariables (.ofPairs s.pairs) = s := by
  have hne : s.serverUrl.toList ≠ [] := by simpa using h.serverUrl
  have hpower : (Variables.ofPairs s.pairs).count "COMPUTING_POWER" default.power = s.power :=
    Variables.count_of_toString rfl h.power_lt _
  rw [ofVariables_eq, address_pairs h, if_neg hne, String.ofList_toList, hpower,
    Nat.max_eq_right h.power, ← h.errorBackoff]

/-- The settings that a worker process can be given. -/
theorem exists_variables_iff (s : AgentSettings) :
    (∃ vars, ofVariables vars = s) ↔ s.Settable := by
  constructor
  · rintro ⟨vars, rfl⟩
    exact settable_ofVariables vars
  · exact fun h => ⟨_, ofVariables_pairs h⟩

theorem ofVariables_congr {vars vars' : Variables}
    (h : ∀ name ∈ names, vars.said name = vars'.said name) :
    ofVariables vars = ofVariables vars' := by
  simp only [names, List.forall_mem_cons] at h
  obtain ⟨hurl, hpower, -⟩ := h
  have haddress : address vars = address vars' := by rw [address, address, hurl]
  rw [ofVariables_eq, ofVariables_eq, haddress, Variables.count_congr hpower]

/-- Variables that say nothing leave the defaults in force. -/
theorem ofVariables_of_said_eq_nil {vars : Variables} (h : ∀ name ∈ names, vars.said name = []) :
    ofVariables vars = default := by
  calc ofVariables vars = ofVariables fun _ => none := ofVariables_congr h
    _ = default := rfl

end AgentSettings

end Piecework
