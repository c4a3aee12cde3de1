import Mathlib.Data.List.Perm.Basic
import Mathlib.Data.List.Nodup
import Holchain.Holper.ParamSpec

/-!
# Laws.ParamSpec — validation is exact on string parameters

A chain of declarations is followed from the left: `Declared pre ps` is what holds of the
`ParamSpec` after the declarations `pre`, in particular that the counter of a key is the number
of accepted parameters declared with it so far (`counted`). One declaration keeps it
(`Declaration.apply_spec`) and adds a reason exactly when it is not met (`Meets`); a whole chain
by induction (`declareAll_spec`). A chain throws exactly when it repeats a name or has bounds
that `key` refuses (`Sane`), whatever is supplied.
-/

namespace Holchain.Holper

open Std (TreeMap TreeSet)

namespace ParamSpec

variable {P : Platform} {supplied : Parameters}

/-- A declared parameter is fine when it is not supplied or its text is accepted. -/
def ParamDeclaration.Fine (P : Platform) (supplied : Parameters) (d : ParamDeclaration) : Prop :=
  ∀ text, supplied.parameters[d.name]? = some text → (St.to P d.type text).isSome

/-- The parameter is supplied, accepted and declared with the key. -/
def ParamDeclaration.counts (P : Platform) (supplied : Parameters) (k : Bytes)
    (d : ParamDeclaration) : Bool :=
  match supplied.parameters[d.name]? with
  | some text => (St.to P d.type text).isSome && d.keys.contains k
  | none => false

/-- `key` takes the bounds. -/
def KeyDeclaration.Bounded (d : KeyDeclaration) : Prop :=
  0 ≤ d.min ∧ (d.max = -1 ∨ d.min ≤ d.max)

/-- A number within the bounds of a key, -1 standing for no upper bound. -/
def KeyDeclaration.Allows (d : KeyDeclaration) (n : Int) : Prop :=
  d.min ≤ n ∧ (d.max = -1 ∨ n ≤ d.max)

/-- The names a chain has declared. -/
def names (ds : List Declaration) : List Bytes :=
  ds.filterMap fun
    | .param d => some d.name
    | .key _ => none

/-- The accepted parameters a chain has declared with the key. -/
def counted (P : Platform) (supplied : Parameters) (ds : List Declaration) (k : Bytes) : Nat :=
  ds.countP fun
    | .param d => d.counts P supplied k
    | .key _ => false

/-- The declaration, made after `pre`, throws nothing. -/
def Sane (pre : List Declaration) : Declaration → Prop
  | .param d => d.name ∉ names pre
  | .key d => d.Bounded

/-- The declaration, made after `pre`, finds nothing to refuse. -/
def Meets (P : Platform) (supplied : Parameters) (pre : List Declaration) : Declaration → Prop
  | .param d => d.Fine P supplied
  | .key d => d.Allows (counted P supplied pre d.key)

/-- No declaration of the chain throws. -/
def AllSane : List Declaration → List Declaration → Prop
  | _, [] => True
  | pre, d :: ds => Sane pre d ∧ AllSane (pre ++ [d]) ds

/-- No declaration of the chain finds anything to refuse. -/
def AllMet (P : Platform) (supplied : Parameters) : List Declaration → List Declaration → Prop
  | _, [] => True
  | pre, d :: ds => Meets P supplied pre d ∧ AllMet P supplied (pre ++ [d]) ds

/-- What holds of a validating `ParamSpec` after the declarations `pre`. -/
structure Declared (P : Platform) (supplied : Parameters) (pre : List Declaration)
    (ps : ParamSpec) : Prop where
  parameters : ps.parameters = supplied
  validate : ps.validate = true
  accounted : ∀ n, n ∈ ps.parametersAccountedFor ↔ n ∈ names pre
  counters : ∀ k, ps.counters[k]?.getD 0 = counted P supplied pre k

/-! ## The steps -/

@[simp] theorem names_append (ds es : List Declaration) : names (ds ++ es) = names ds ++ names es :=
  List.filterMap_append

@[simp] theorem names_singleton_param (d : ParamDeclaration) : names [.param d] = [d.name] := rfl

@[simp] theorem names_singleton_key (d : KeyDeclaration) : names [.key d] = [] := rfl

@[simp] theorem counted_append (ds es : List Declaration) (k : Bytes) :
    counted P supplied (ds ++ es) k = counted P supplied ds k + counted P supplied es k :=
  List.countP_append

theorem counted_singleton_param (d : ParamDeclaration) (k : Bytes) :
    counted P supplied [.param d] k = if d.counts P supplied k then 1 else 0 := by
  rw [counted, List.countP_singleton]

@[simp] theorem counted_singleton_key (d : KeyDeclaration) (k : Bytes) :
    counted P supplied [.key d] k = 0 := rfl

/-- A `ParamSpec` as it is built has declared nothing. -/
theorem declared_nil (P : Platform) (supplied : Parameters) :
    Declared P supplied [] { parameters := supplied, validate := true } where
  parameters := rfl
  validate := rfl
  accounted := fun n => by simp [names]
  counters := fun k => by simp [counted]

/-- **One `param` call**: it throws exactly on a repeated name, keeps the invariant, and gives a
reason exactly when the supplied text is not accepted. -/
theorem param_spec {pre : List Declaration} {ps : ParamSpec} (h : Declared P supplied pre ps)
    (d : ParamDeclaration) (hnew : d.name ∉ names pre) :
    ∃ ps', (Declaration.param d).apply P ps = .ok ps'
      ∧ Declared P supplied (pre ++ [.param d]) ps'
      ∧ (ps'.failReason_ = [] ↔ ps.failReason_ = [] ∧ d.Fine P supplied) := by
  have hcontains : ps.parametersAccountedFor.contains d.name = false := by
    rw [Bool.eq_false_iff]
    exact fun hc => hnew ((h.accounted _).mp (TreeSet.mem_iff_contains.mpr hc))
  have haccounted (n : Bytes) : n ∈ ps.parametersAccountedFor.insert d.name
      ↔ n ∈ names (pre ++ [.param d]) := by
    rw [TreeSet.mem_insert, h.accounted, names_append, names_singleton_param, List.mem_append,
      List.mem_singleton, Std.LawfulEqOrd.compare_eq_iff_eq, or_comm, eq_comm]
  simp only [Declaration.apply, param, hcontains, Bool.false_eq_true, ↓reduceIte, h.validate,
    Bool.not_true, Parameters.get, h.parameters]
  cases hs : supplied.parameters[d.name]? with
  | none =>
    refine ⟨_, rfl, ?_, ?_⟩
    · refine ⟨rfl, rfl, haccounted, fun k => ?_⟩
      rw [counted_append, counted_singleton_param]
      simp [ParamDeclaration.counts, hs, h.counters]
    · simp [ParamDeclaration.Fine, hs]
  | some text =>
    dsimp only
    cases ht : St.to P d.type text with
    | none =>
      refine ⟨_, rfl, ?_, ?_⟩
      · refine ⟨rfl, rfl, haccounted, fun k => ?_⟩
        rw [counted_append, counted_singleton_param]
        simp [ParamDeclaration.counts, hs, ht, h.counters, addFailReason]
      · simp [ParamDeclaration.Fine, hs, ht]
    | some value =>
      refine ⟨_, rfl, ?_, ?_⟩
      · refine ⟨rfl, rfl, haccounted, fun k => ?_⟩
        rw [countKeys_getD, h.counters, counted_append, counted_singleton_param]
        by_cases hk : k ∈ d.keys
        · simp [ParamDeclaration.counts, hs, ht, hk, TreeSet.mem_iff_contains.mp hk]
        · have : d.keys.contains k = false := by
            rw [Bool.eq_false_iff]
            exact fun hc => hk (TreeSet.mem_iff_contains.mpr hc)
          simp [ParamDeclaration.counts, hs, ht, hk, this]
      · simp [ParamDeclaration.Fine, hs, ht]

/-- **One `key` call**: it throws exactly on bounds that make no sense, keeps the invariant, and
gives a reason exactly when the count so far is out of bounds. -/
theorem key_spec {pre : List Declaration} {ps : ParamSpec} (h : Declared P supplied pre ps)
    (d : KeyDeclaration) (hb : d.Bounded) :
    ∃ ps', (Declaration.key d).apply P ps = .ok ps'
      ∧ Declared P supplied (pre ++ [.key d]) ps'
      ∧ (ps'.failReason_ = []
        ↔ ps.failReason_ = [] ∧ d.Allows (counted P supplied pre d.key)) := by
  have hsane : ¬ (d.min < 0 ∨ (d.max ≠ -1 ∧ d.max < d.min)) := by
    unfold KeyDeclaration.Bounded at hb
    omega
  have haccounted (n : Bytes) : n ∈ ps.parametersAccountedFor
      ↔ n ∈ names (pre ++ [.key d]) := by
    rw [names_append, names_singleton_key, List.append_nil, h.accounted]
  have hcounters (k : Bytes) : ps.counters[k]?.getD 0 = counted P supplied (pre ++ [.key d]) k := by
    rw [counted_append, counted_singleton_key, h.counters, Nat.add_zero]
  simp only [Declaration.apply, key, hsane, ↓reduceIte, h.validate, Bool.not_true,
    Bool.false_eq_true, h.counters]
  refine ⟨_, rfl, ?_, ?_⟩
  · split <;> split <;> exact ⟨h.parameters, rfl, haccounted, hcounters⟩
  · unfold KeyDeclaration.Allows
    split <;> split <;> simp <;> omega

/-- One declaration that throws nothing. -/
theorem Declaration.apply_spec {pre : List Declaration} {ps : ParamSpec}
    (h : Declared P supplied pre ps) {d : Declaration} (hsane : Sane pre d) :
    ∃ ps', d.apply P ps = .ok ps' ∧ Declared P supplied (pre ++ [d]) ps'
      ∧ (ps'.failReason_ = [] ↔ ps.failReason_ = [] ∧ Meets P supplied pre d) := by
  cases d with
  | param d => exact param_spec h d hsane
  | key d => exact key_spec h d hsane

/-- A declaration that is not sane throws. -/
theorem Declaration.apply_throws {pre : List Declaration} {ps : ParamSpec}
    (h : Declared P supplied pre ps) {d : Declaration} (hsane : ¬ Sane pre d) :
    ∃ e, d.apply P ps = .error e := by
  cases d with
  | param d =>
    have hin : ps.parametersAccountedFor.contains d.name = true :=
      TreeSet.mem_iff_contains.mp ((h.accounted _).mpr (not_not.mp hsane))
    simp [Declaration.apply, ParamSpec.param, hin]
  | key d =>
    have hbad : d.min < 0 ∨ (d.max ≠ -1 ∧ d.max < d.min) := by
      unfold Sane KeyDeclaration.Bounded at hsane
      omega
    simp only [Declaration.apply, ParamSpec.key, if_pos hbad]
    exact ⟨_, rfl⟩

/-! ## The chain -/

/-- **A chain that throws nothing** keeps the invariant and leaves no reason exactly when each of
its declarations is met. -/
theorem declareAll_spec {ds : List Declaration} :
    ∀ {pre : List Declaration} {ps : ParamSpec}, Declared P supplied pre ps → AllSane pre ds →
      ∃ ps', declareAll P ds ps = .ok ps' ∧ Declared P supplied (pre ++ ds) ps'
        ∧ (ps'.failReason_ = [] ↔ ps.failReason_ = [] ∧ AllMet P supplied pre ds) := by
  induction ds with
  | nil =>
    intro pre ps h _
    exact ⟨ps, rfl, by rwa [List.append_nil], by simp [AllMet]⟩
  | cons d ds ih =>
    intro pre ps h hsane
    obtain ⟨ps₁, happly, h₁, hreason₁⟩ := Declaration.apply_spec h hsane.1
    obtain ⟨ps', hrest, h', hreason⟩ := ih h₁ hsane.2
    refine ⟨ps', ?_, ?_, ?_⟩
    · simp only [declareAll, happly, Except.bind, hrest]
    · rwa [List.append_assoc, List.singleton_append] at h'
    · rw [hreason, hreason₁, and_assoc, AllMet]

/-- A chain that is not sane throws. -/
theorem declareAll_throws {ds : List Declaration} :
    ∀ {pre : List Declaration} {ps : ParamSpec}, Declared P supplied pre ps → ¬ AllSane pre ds →
      ∃ e, declareAll P ds ps = .error e := by
  induction ds with
  | nil =>
    intro pre ps _ hns
    exact absurd trivial hns
  | cons d ds ih =>
    intro pre ps h hns
    by_cases hd : Sane pre d
    · obtain ⟨ps₁, happly, h₁, _⟩ := Declaration.apply_spec h hd
      obtain ⟨e, he⟩ := ih h₁ fun hall => hns ⟨hd, hall⟩
      exact ⟨e, by simp only [declareAll, happly, Except.bind, he]⟩
    · obtain ⟨e, he⟩ := Declaration.apply_throws h hd
      exact ⟨e, by simp only [declareAll, he, Except.bind]⟩

/-- Every supplied string parameter is declared, and every declaration of the chain is met. -/
def Accepts (P : Platform) (supplied : Parameters) (ds : List Declaration) : Prop :=
  (∀ name ∈ supplied.parameters, name ∈ names ds) ∧ AllMet P supplied [] ds

/-- **Validation of a whole chain**: `failReason` returns nothing exactly when the supplied
parameters are accepted. -/
theorem declareAll_failReason (P : Platform) (supplied : Parameters) {ds : List Declaration}
    (hsane : AllSane [] ds) :
    ∃ ps, declareAll P ds { parameters := supplied, validate := true } = .ok ps
      ∧ (ps.failReason = none ↔ Accepts P supplied ds) := by
  obtain ⟨ps, hds, h, hreason⟩ := declareAll_spec (declared_nil P supplied) hsane
  refine ⟨ps, hds, ?_⟩
  rw [failReason_eq_none, hreason, h.parameters]
  simp only [true_and, h.accounted, List.nil_append]
  exact and_comm

/-! ## Parameters first, keys last -/

theorem allSane_append {pre ds es : List Declaration} :
    AllSane pre (ds ++ es) ↔ AllSane pre ds ∧ AllSane (pre ++ ds) es := by
  induction ds generalizing pre with
  | nil => simp [AllSane]
  | cons d ds ih => simp [AllSane, ih, and_assoc]

theorem allMet_append {pre ds es : List Declaration} :
    AllMet P supplied pre (ds ++ es)
      ↔ AllMet P supplied pre ds ∧ AllMet P supplied (pre ++ ds) es := by
  induction ds generalizing pre with
  | nil => simp [AllMet]
  | cons d ds ih => simp [AllMet, ih, and_assoc]

theorem allSane_params {pre : List Declaration} {params : List ParamDeclaration} :
    AllSane pre (params.map .param)
      ↔ (params.map (·.name)).Nodup ∧ ∀ d ∈ params, d.name ∉ names pre := by
  induction params generalizing pre with
  | nil => simp [AllSane]
  | cons d params ih =>
    simp only [List.map_cons, AllSane, ih, Sane, names_append, names_singleton_param,
      List.mem_append, List.not_mem_nil, not_or, not_false_eq_true, and_true, List.nodup_cons,
      List.mem_map, not_exists, not_and, List.mem_cons, forall_eq_or_imp]
    constructor
    · intro h
      obtain ⟨hd, hnd, hrest⟩ := h
      exact ⟨⟨fun e he => (hrest e he).2, hnd⟩, hd, fun e he => (hrest e he).1⟩
    · intro h
      obtain ⟨⟨hne, hnd⟩, hd, hrest⟩ := h
      exact ⟨hd, hnd, fun e he => ⟨hrest e he, hne e he⟩⟩

theorem allSane_keys {pre : List Declaration} {keys : List KeyDeclaration} :
    AllSane pre (keys.map .key) ↔ ∀ k ∈ keys, k.Bounded := by
  induction keys generalizing pre with
  | nil => simp [AllSane]
  | cons k keys ih => simp [AllSane, ih, Sane]

theorem allMet_params {pre : List Declaration} {params : List ParamDeclaration} :
    AllMet P supplied pre (params.map .param) ↔ ∀ d ∈ params, d.Fine P supplied := by
  induction params generalizing pre with
  | nil => simp [AllMet]
  | cons d params ih => simp [AllMet, ih, Meets]

theorem allMet_keys {pre : List Declaration} {keys : List KeyDeclaration} :
    AllMet P supplied pre (keys.map .key)
      ↔ ∀ k ∈ keys, k.Allows (counted P supplied pre k.key) := by
  induction keys generalizing pre with
  | nil => simp [AllMet]
  | cons k keys ih => simp [AllMet, ih, Meets]

theorem names_params (params : List ParamDeclaration) :
    names (params.map .param) = params.map (·.name) := by
  simp [names, List.filterMap_map]

theorem names_keys (keys : List KeyDeclaration) : names (keys.map .key) = [] := by
  simp [names, List.filterMap_map]

theorem counted_params (params : List ParamDeclaration) (k : Bytes) :
    counted P supplied (params.map .param) k = params.countP (·.counts P supplied k) := by
  rw [counted, List.countP_map]
  rfl

/-- The supplied parameters whose key set contains `k`. -/
def suppliedWithKey (supplied : Parameters) (params : List ParamDeclaration) (k : Bytes) :
    List Bytes :=
  supplied.parameters.keys.filter fun name =>
    params.any fun d => d.name == name && d.keys.contains k

/-- A fine parameter counts for a key exactly when it is supplied and declared with it. -/
theorem ParamDeclaration.Fine.counts_iff {d : ParamDeclaration} (h : d.Fine P supplied)
    (k : Bytes) :
    d.counts P supplied k = true ↔ d.name ∈ supplied.parameters ∧ d.keys.contains k = true := by
  unfold ParamDeclaration.counts
  rw [TreeMap.mem_iff_isSome_getElem?]
  cases hs : supplied.parameters[d.name]? with
  | none => simp
  | some text => simp [h text hs]

/-- Where all is fine, counting declarations is counting supplied parameters: a supplied name
belongs to one declaration. -/
theorem countP_counts {params : List ParamDeclaration} (hnames : (params.map (·.name)).Nodup)
    (hfine : ∀ d ∈ params, d.Fine P supplied) (k : Bytes) :
    params.countP (·.counts P supplied k) = (suppliedWithKey supplied params k).length := by
  have hdeclared : ((params.filter (·.counts P supplied k)).map (·.name)).Nodup :=
    (List.filter_sublist.map _).nodup hnames
  have hsupplied : (suppliedWithKey supplied params k).Nodup := by
    refine List.Nodup.filter _ (TreeMap.distinct_keys.imp ?_)
    intro a b hab heq
    exact hab (by simp [heq])
  have hperm : ((params.filter (·.counts P supplied k)).map (·.name)).Perm
      (suppliedWithKey supplied params k) := by
    rw [List.perm_ext_iff_of_nodup hdeclared hsupplied]
    intro name
    simp only [suppliedWithKey, List.mem_map, List.mem_filter, TreeMap.mem_keys, List.any_eq_true,
      Bool.and_eq_true, beq_iff_eq]
    constructor
    · intro hdeclared
      obtain ⟨d, ⟨hd, hcounts⟩, rfl⟩ := hdeclared
      obtain ⟨hin, hk⟩ := ((hfine d hd).counts_iff k).mp hcounts
      exact ⟨hin, d, hd, rfl, hk⟩
    · intro hkey
      obtain ⟨hin, d, hd, rfl, hk⟩ := hkey
      exact ⟨d, ⟨hd, ((hfine d hd).counts_iff k).mpr ⟨hin, hk⟩⟩, rfl⟩
  rw [List.countP_eq_length_filter, ← hperm.length_eq, List.length_map]

/-- **Validation is exact.** After any parameter declarations with distinct names and then any
key declarations with bounds that make sense, `failReason` returns nothing if and only if every
supplied name is declared, every supplied text is accepted for its declared type, and every key
has as many supplied parameters as its bounds allow. -/
theorem failReason_exact (P : Platform) (supplied : Parameters) (params : List ParamDeclaration)
    (keys : List KeyDeclaration) (hnames : (params.map (·.name)).Nodup)
    (hkeys : ∀ k ∈ keys, 0 ≤ k.min ∧ (k.max = -1 ∨ k.min ≤ k.max)) :
    ∃ ps, declareAll P (params.map .param ++ keys.map .key)
        { parameters := supplied, validate := true } = .ok ps
      ∧ (ps.failReason = none ↔
        (∀ name ∈ supplied.parameters, ∃ d ∈ params, d.name = name)
        ∧ (∀ d ∈ params, ∀ text, supplied.parameters[d.name]? = some text →
            (St.to P d.type text).isSome)
        ∧ (∀ k ∈ keys, k.min ≤ (suppliedWithKey supplied params k.key).length
            ∧ (k.max = -1 ∨ (suppliedWithKey supplied params k.key).length ≤ k.max))) := by
  have hsane : AllSane [] (params.map .param ++ keys.map .key) :=
    allSane_append.mpr ⟨allSane_params.mpr ⟨hnames, fun d _ => List.not_mem_nil⟩,
      allSane_keys.mpr hkeys⟩
  obtain ⟨ps, hds, hreason⟩ := declareAll_failReason P supplied hsane
  refine ⟨ps, hds, ?_⟩
  rw [hreason, Accepts, allMet_append, allMet_params, allMet_keys, names_append, names_params,
    names_keys, List.append_nil]
  simp only [List.mem_map, List.nil_append, counted_params]
  refine and_congr_right fun _ => and_congr_right fun hfine => ?_
  refine forall₂_congr fun k _ => ?_
  rw [countP_counts hnames hfine]
  rfl

/-- The volume action's declarations, with one operation supplied. -/
theorem failReason_exact_volume :
    ∃ ps, declareAll .bare
        ([⟨.int, lit "set", .ofList [lit "operations"], []⟩,
          ⟨.none, lit "mute", .ofList [lit "operations"], []⟩].map .param
          ++ [⟨lit "operations", 1, 1⟩].map .key)
        { parameters := { parameters := .ofList [(lit "set", lit "40")] }, validate := true }
          = .ok ps
      ∧ ps.failReason = none := by
  obtain ⟨ps, hps, hreason⟩ := failReason_exact .bare
    { parameters := .ofList [(lit "set", lit "40")] }
    [⟨.int, lit "set", .ofList [lit "operations"], []⟩,
      ⟨.none, lit "mute", .ofList [lit "operations"], []⟩]
    [⟨lit "operations", 1, 1⟩] (by decide) (by decide)
  refine ⟨ps, hps, hreason.mpr ⟨?_, ?_, by decide⟩⟩
  · intro name hname
    rw [← TreeMap.mem_keys] at hname
    revert name
    decide
  · decide

end ParamSpec

end Holchain.Holper
