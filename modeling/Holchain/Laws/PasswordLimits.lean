import Holchain.Laws.Clipboard

/-!
# Laws.PasswordLimits — requests that the password generator is not meant for

The counters of a request allow a length up to the sum of the minima and of what is left of each
class. A longer password is not refused: the letters run out, and the action divides by zero
(`survives_iff`). A counter below zero is lowered through all of `int`, so a class with a negative
minimum has no limit in the phase of the minima, and takes the letters of the other classes there
(`limits_kept_iff`).
-/

namespace Holchain.Holper.GeneratePasswordAction

open Lib (tally Apart Over)

variable {P : Platform} {supplied : Parameters} {len : ℤ} {w : Bytes} {cl : Class}

/-- A machine whose random device has these results. -/
def reading (M : Machine P) (d : ℕ → Except Bytes UInt32) : Machine P := { M with urandom := d }

/-- The result of the action, from these results of the random device. -/
def outcome (M : Machine P) (supplied : Parameters) (d : ℕ → Except Bytes UInt32) :
    Except Stop Json :=
  ((actOn (reading M d) supplied).run.run {}).1

/-- Nothing that is read leads to a step that is not defined. -/
def Survives (M : Machine P) (supplied : Parameters) : Prop :=
  ∀ d u, outcome M supplied d ≠ .error (.undefined u)

/-- Whatever is read, the response is an error. -/
def Refuses (M : Machine P) (supplied : Parameters) : Prop :=
  ∀ d, ∃ what, outcome M supplied d = .error (.threw what)

/-- No password is what is asked for. -/
def Unsatisfiable (P : Platform) (supplied : Parameters) (len : ℤ) : Prop :=
  ∀ w, ¬ Admissible P supplied len w

/-- The limits have room for the length. -/
structure Allowed (P : Platform) (supplied : Parameters) (len : ℤ) : Prop where
  nonneg : ∀ cl ∈ classes, 0 ≤ cl.max P supplied len
  minima : (classes.map fun cl => max 0 (cl.min P supplied len)).sum ≤ len
  maxima : len ≤ (classes.map (Class.max P supplied len)).sum

/-! ## Words of the classes -/

theorem over_classes : (∀ c ∈ w, ∃ cl ∈ classes, c ∈ cl.alpha) ↔ Over (classes.map (·.alpha)) w := by
  refine forall₂_congr fun c _ => ?_
  constructor
  · intro ⟨cl, hcl, hin⟩
    exact ⟨cl.alpha, List.mem_map_of_mem hcl, hin⟩
  · intro ⟨alphabet, halphabet, hin⟩
    obtain ⟨cl, hcl, rfl⟩ := List.mem_map.mp halphabet
    exact ⟨cl, hcl, hin⟩

theorem classes_apart : Apart (classes.map (·.alpha)) := (List.nodup_flatten.mp alphabets_nodup).2

theorem disjoint_of_ne {cl' : Class} (hcl : cl ∈ classes) (hcl' : cl' ∈ classes) (hne : cl ≠ cl') :
    cl.alpha.Disjoint cl'.alpha :=
  fun _ hin hin' => hne (Lib.eq_of_mem classes_apart hcl hcl' hin hin')

/-- A string of any length up to the sum of some numbers, with at most so many letters of each
class. -/
theorem exists_kept {bound : Class → ℤ} (hbound : ∀ cl, 0 ≤ bound cl ∧ bound cl < 2 ^ 31)
    {n : ℕ} (hsum : n ≤ (classes.map bound).sum) :
    ∃ w : Bytes, w.length = n ∧ (∀ c ∈ w, ∃ cl ∈ classes, c ∈ cl.alpha)
      ∧ ∀ cl ∈ classes, (tally cl.alpha w : ℤ) ≤ bound cl := by
  let f : Class → Limit := fun cl => ⟨bound cl, 0, cl.alpha⟩
  have hcounters : Counters (classes.map f) := by
    apply counters_map
    · exact fun _ => rfl
    · intro cl getter
      have := hbound cl
      cases getter with
      | min =>
        simp only [Getter.get, f]
        omega
      | max =>
        simp only [Getter.get, f]
        omega
  have hleft (cl : Class) : (left .min (f cl) : ℤ) = bound cl := by
    have := hbound cl
    simp only [left, Getter.get, f]
    omega
  have hcapacity : n ≤ capacity .min (classes.map f) := by
    have hcast : (capacity .min (classes.map f) : ℤ) = (classes.map bound).sum := by
      rw [capacity, List.map_map, Nat.cast_list_sum, List.map_map]
      congr 1
      exact List.map_congr_left fun cl _ => hleft cl
    omega
  have hlower : (⟨lit "lower", kLower⟩ : Class) ∈ classes := .head _
  obtain ⟨w, hlength, hdrawn, -⟩ :=
    exists_drawn hcounters (List.mem_map_of_mem hlower) hcapacity
  refine ⟨w, hlength, ?_, fun cl hcl => ?_⟩
  · have hover := hdrawn.letters
    rw [List.map_map] at hover
    exact over_classes.mpr hover
  · have hcount := hdrawn.counts (f cl) (List.mem_map_of_mem hcl)
    rw [← hleft cl]
    exact Int.ofNat_le.mpr hcount

/-- A string is as long as its classes count. -/
theorem length_eq_tallies (h : ∀ c ∈ w, ∃ cl ∈ classes, c ∈ cl.alpha) :
    (w.length : ℤ) = (classes.map fun cl => (tally cl.alpha w : ℤ)).sum := by
  rw [Lib.length_eq_sum classes_apart (over_classes.mp h), List.map_map, Nat.cast_list_sum,
    List.map_map]
  rfl

/-- One with exactly so many letters of each class. -/
theorem exists_tallies {bound : Class → ℤ} (hbound : ∀ cl, 0 ≤ bound cl ∧ bound cl < 2 ^ 31) :
    ∃ w : Bytes, (w.length : ℤ) = (classes.map bound).sum ∧ (∀ c ∈ w, ∃ cl ∈ classes, c ∈ cl.alpha)
      ∧ ∀ cl ∈ classes, (tally cl.alpha w : ℤ) = bound cl := by
  have hsum : 0 ≤ (classes.map bound).sum :=
    List.sum_nonneg (List.forall_mem_map.mpr fun cl _ => (hbound cl).1)
  have hcast : ((classes.map bound).sum.toNat : ℤ) = (classes.map bound).sum := Int.toNat_of_nonneg hsum
  obtain ⟨w, hlength, hletters, hkept⟩ := exists_kept hbound hcast.le
  have hall : (w.length : ℤ) = (classes.map bound).sum := by rw [hlength, hcast]
  refine ⟨w, hall, hletters, fun cl hcl => (hkept cl hcl).antisymm (not_lt.mp fun hless => ?_)⟩
  -- with one letter less somewhere the string is shorter
  have hshort := List.sum_lt_sum _ _ hkept ⟨cl, hcl, hless⟩
  rw [← length_eq_tallies hletters, hall] at hshort
  exact lt_irrefl _ hshort

theorem Admissible.allowed (h : Admissible P supplied len w) : Allowed P supplied len := by
  have hsum := length_eq_tallies h.letters
  rw [h.length] at hsum
  refine ⟨fun cl hcl => (Int.natCast_nonneg _).trans (h.bounds cl hcl).2, ?_, ?_⟩
  · exact (List.sum_le_sum fun cl hcl => max_le (Int.natCast_nonneg _) (h.bounds cl hcl).1).trans
      hsum.ge
  · exact hsum.le.trans (List.sum_le_sum fun cl hcl => (h.bounds cl hcl).2)

/-- **A request can be satisfied where the limits have room for its length**: the letters of the
minima, and then as many of the maxima as are missing. -/
theorem satisfiable_iff (hlen : -2 ^ 31 ≤ len ∧ len < 2 ^ 31) :
    (∃ w, Admissible P supplied len w) ↔ Allowed P supplied len := by
  refine ⟨fun ⟨_, hw⟩ => hw.allowed, fun h => ?_⟩
  let least : Class → ℤ := fun cl => max 0 (cl.min P supplied len)
  let rest : Class → ℤ := fun cl => max 0 (cl.max P supplied len) - least cl
  have hleast (cl : Class) : 0 ≤ least cl ∧ least cl < 2 ^ 31 := by
    have := cl.bounds P supplied hlen
    simp only [least]
    omega
  have hrest (cl : Class) : 0 ≤ rest cl ∧ rest cl < 2 ^ 31 := by
    have := cl.bounds P supplied hlen
    simp only [rest, least]
    omega
  have hsum : (classes.map (Class.max P supplied len)).sum
      = (classes.map least).sum + (classes.map rest).sum := by
    rw [← List.sum_map_add]
    refine congrArg List.sum (List.map_congr_left fun cl hcl => ?_)
    have := h.nonneg cl hcl
    simp only [rest]
    omega
  have hminima : (classes.map least).sum ≤ len := h.minima
  have hmaxima := h.maxima
  obtain ⟨u, hu, huletters, hutally⟩ := exists_tallies hleast
  obtain ⟨v, hv, hvletters, hvtally⟩ :=
    exists_kept hrest (n := (len - (classes.map least).sum).toNat) (by omega)
  refine ⟨u ++ v, ?_, fun c hc => ?_, fun cl hcl => ?_⟩
  · rw [List.length_append, hv]
    omega
  · exact (List.mem_append.mp hc).elim (huletters c) (hvletters c)
  · have hfirst := hutally cl hcl
    have hsecond := hvtally cl hcl
    have hnonneg := h.nonneg cl hcl
    rw [Lib.tally_append]
    simp only [rest, least] at hfirst hsecond
    omega

/-! ## Which requests survive -/

/-- The longest password that the counters allow. -/
def longest (P : Platform) (supplied : Parameters) (len : ℤ) : ℤ :=
  max 0 (minlens P supplied len) + ((classes.map (Class.max P supplied len)).sum
    - (classes.map (Class.min P supplied len)).sum)

theorem longest_nonneg (P : Platform) (supplied : Parameters)
    (hlen : -2 ^ 31 ≤ len ∧ len < 2 ^ 31) : 0 ≤ longest P supplied len := by
  have hmax := capacity_max P supplied hlen
  unfold longest
  omega

/-- A negative length is refused, and there is nothing else that it can come to. -/
theorem outcome_neg (M : Machine P) (hlen : (supplied.get P .int (lit "length")).1 = some len)
    (hneg : len < 0) (d : ℕ → Except Bytes UInt32) :
    outcome M supplied d = .error (.threw (lit "vector::reserve")) := by
  rw [outcome, actOn_neg _ hlen hneg]

/-- **Longer passwords divide by zero**, whatever is drawn. -/
theorem outcome_divided (M : Machine P) (hlen : (supplied.get P .int (lit "length")).1 = some len)
    (hlong : longest P supplied len < len) (d : ℕ → UInt32) :
    outcome M supplied (fun k => .ok (d k)) = .error (.undefined .moduloZero) := by
  have hbounds := get_bounds hlen
  have hnonneg := longest_nonneg P supplied hbounds
  have hroom := (room_iff P supplied hbounds).not.mpr (not_le.mpr hlong)
  have hdivided := actOn_divides (M := reading M fun k => .ok (d k)) hlen (by omega) hroom {}
  unfold outcome
  generalize ((actOn (reading M fun k => .ok (d k)) supplied).run.run {}).1 = r at hdivided
  cases hdivided with
  | divided => rfl
  | threw hthrew => cases hthrew

/-- The others have a result. -/
theorem outcome_answered (M : Machine P) (hlen : (supplied.get P .int (lit "length")).1 = some len)
    (hpos : 0 ≤ len) (hshort : len ≤ longest P supplied len) (d : ℕ → Except Bytes UInt32) :
    Answered (reading M d) (fun result => result = .string (lit "success"))
      (outcome M supplied d) :=
  actOn_answered hlen hpos ((room_iff P supplied (get_bounds hlen)).mpr hshort)

theorem survives_of_le (M : Machine P) (hlen : (supplied.get P .int (lit "length")).1 = some len) :
    Survives M supplied ↔ len ≤ longest P supplied len := by
  constructor
  · intro hsurvives
    by_contra hlong
    exact hsurvives _ _ (outcome_divided M hlen (not_le.mp hlong) fun _ => 0)
  · intro hshort d u hundefined
    rcases lt_or_ge len 0 with hneg | hpos
    · rw [outcome_neg M hlen hneg] at hundefined
      cases hundefined
    · have hanswered := outcome_answered M hlen hpos hshort d
      rw [hundefined] at hanswered
      cases hanswered

/-- What can be satisfied is not too long for the counters. -/
theorem Allowed.le_longest (h : Allowed P supplied len) (hlen : len < 2 ^ 31) :
    len ≤ longest P supplied len := by
  have hminima : (classes.map (Class.min P supplied len)).sum ≤ len :=
    (List.sum_le_sum fun cl _ => le_max_right 0 (cl.min P supplied len)).trans h.minima
  have hmaxima := h.maxima
  unfold longest
  rcases lt_or_ge (classes.map (Class.min P supplied len)).sum 0 with hneg | hpos
  · omega
  · have hminlens : minlens P supplied len = (classes.map (Class.min P supplied len)).sum :=
      toInt32_eq (by omega) (by omega)
    omega

/-- **When the generator does not divide by zero**: the length is at most what the counters allow.
And it refuses all that cannot be satisfied if the length is negative, or the request can be
satisfied: nothing else is refused. -/
theorem survives_iff (M : Machine P) (hpasses : spec.Passes P supplied) : ∃ len : ℤ,
    (supplied.get P .int (lit "length")).1 = some len
      ∧ (Survives M supplied ↔ len ≤ longest P supplied len)
      ∧ ((Survives M supplied ∧ (Unsatisfiable P supplied len → Refuses M supplied)) ↔
        len < 0 ∨ Allowed P supplied len) := by
  obtain ⟨len, -, hget, -⟩ := careful_actOn M hpasses
  have hlen : (supplied.get P .int (lit "length")).1 = some len := by rw [hget]
  have hsurvives := survives_of_le M hlen
  have hbounds := get_bounds hlen
  refine ⟨len, hlen, hsurvives, ?_⟩
  rw [hsurvives]
  rcases lt_or_ge len 0 with hneg | hpos
  · have hlongest := longest_nonneg P supplied hbounds
    have hrefuses : Refuses M supplied := fun d => ⟨_, outcome_neg M hlen hneg d⟩
    exact ⟨fun _ => .inl hneg, fun _ => ⟨by omega, fun _ => hrefuses⟩⟩
  · constructor
    · intro ⟨hshort, h⟩
      right
      by_contra hnot
      obtain ⟨what, hthrew⟩ := h (fun w hw => hnot hw.allowed) fun _ => .ok 0
      have hanswered := outcome_answered M hlen hpos hshort fun _ => .ok 0
      rw [hthrew] at hanswered
      cases hanswered with
      | threw hthrew => cases hthrew
    · rintro (hneg | hallowed)
      · exact absurd hpos (not_le.mpr hneg)
      · obtain ⟨w, hw⟩ := (satisfiable_iff hbounds).mpr hallowed
        exact ⟨hallowed.le_longest hbounds.2, fun hnone => absurd hw (hnone w)⟩

/-- Four letters are asked for and survive. -/
theorem survives_iff_four : Survives dimMachine fourLetters := by
  have hpasses : spec.Passes Platform.bare fourLetters := ⟨_, rfl, rfl⟩
  obtain ⟨len, hlen, hsurvives, -⟩ := survives_iff dimMachine hpasses
  have hfour : (fourLetters.get Platform.bare .int (lit "length")).1 = some (4 : ℤ) := rfl
  obtain rfl : (4 : ℤ) = len := Option.some.inj (hfour.symm.trans hlen)
  exact hsurvives.mpr (by decide)

/-- `clipboard genpwd -- length 4 max_lower 0 max_upper 0 max_numeric 0 max_special 0`. -/
def noLetters : Parameters where
  parameters := Std.TreeMap.ofList [(lit "length", lit "4"), (lit "max_lower", lit "0"),
    (lit "max_upper", lit "0"), (lit "max_numeric", lit "0"), (lit "max_special", lit "0")]

/-- The maxima allow no letter, and the first draw divides by zero. -/
theorem noLetters_divides : spec.Passes Platform.bare noLetters
    ∧ Unsatisfiable Platform.bare noLetters 4
    ∧ outcome dimMachine noLetters (fun _ => .ok 0) = .error (.undefined .moduloZero) := by
  have hpasses : spec.Passes Platform.bare noLetters := ⟨_, rfl, rfl⟩
  have hfour : (noLetters.get Platform.bare .int (lit "length")).1 = some (4 : ℤ) := rfl
  refine ⟨hpasses, ?_, ?_⟩
  · exact fun w hw => absurd hw.allowed.maxima (by decide)
  · exact outcome_divided dimMachine hfour (by decide) fun _ => 0

/-! ## Which limits are kept -/

/-- What is asked of a password: no class has more letters than its maximum; and if there is a
string that keeps the limits, each class has its minimum. -/
structure KeepsLimits (P : Platform) (supplied : Parameters) (len : ℤ) (w : Bytes) : Prop where
  maxima : ∀ cl ∈ classes, (tally cl.alpha w : ℤ) ≤ max 0 (cl.max P supplied len)
  minima : (∃ w', Admissible P supplied len w') →
    ∀ cl ∈ classes, cl.min P supplied len ≤ tally cl.alpha w

/-- Every password that is made keeps the limits. -/
def LimitsKept (M : Machine P) (supplied : Parameters) (len : ℤ) : Prop :=
  ∀ d w, Makes (reading M d) supplied w → KeepsLimits P supplied len w

/-- **A password with as many letters of one class as its counters allow.** -/
theorem exists_drawable (hlen : -2 ^ 31 ≤ len ∧ len < 2 ^ 31) (hcl : cl ∈ classes)
    (hroom : Room (minlens P supplied len).toNat 0 len.toNat (limitsOf P supplied len)) :
    ∃ w, Drawable P supplied len w ∧ tally cl.alpha w =
      min (left .min (cl.limit P supplied len)) (min (minlens P supplied len).toNat len.toNat)
        + min (left .max (cl.limit P supplied len)) (len.toNat - (minlens P supplied len).toNat) := by
  obtain ⟨hfirst, hsecond⟩ := hroom
  rw [Nat.sub_zero] at hfirst hsecond
  have hcounters := limitsOf_counters P supplied hlen
  have hlimit := List.mem_map_of_mem (f := Class.limit P supplied len) hcl
  obtain ⟨u, hu, hudrawn, hutally⟩ := exists_drawn hcounters hlimit hfirst
  obtain ⟨v, hv, hvdrawn, hvtally⟩ := exists_drawn hcounters hlimit hsecond
  refine ⟨u ++ v, ⟨?_, u ++ v, .refl _, picked_append hudrawn hvdrawn hu hv⟩, ?_⟩
  · rw [List.length_append, hu, hv]
    omega
  · rw [Lib.tally_append]
    exact congrArg₂ (· + ·) hutally hvtally

/-- The letters of a class that a password has: those of both phases. -/
theorem Drawable.tally_le (h : Drawable P supplied len w) (hcl : cl ∈ classes) :
    ∃ a b, tally cl.alpha w = a + b ∧ a ≤ (minlens P supplied len).toNat
      ∧ a ≤ left .min (cl.limit P supplied len) ∧ b ≤ left .max (cl.limit P supplied len) := by
  obtain ⟨-, w', hperm, hfirst, hsecond⟩ := h
  rw [Nat.sub_zero] at hfirst hsecond
  have hlimit := List.mem_map_of_mem (f := Class.limit P supplied len) hcl
  refine ⟨_, _, ?_, ?_, hfirst.counts _ hlimit, hsecond.counts _ hlimit⟩
  · have htally := Lib.tally_append cl.alpha (w'.take (minlens P supplied len).toNat)
      (w'.drop (minlens P supplied len).toNat)
    rw [List.take_append_drop, Lib.tally_perm hperm] at htally
    exact htally
  · exact (Lib.tally_le_length _ _).trans (List.length_take_le _ _)

/-- The condition: where a minimum is negative, the class has no limit that matters (or none of its
letters), and no other class has a positive minimum that can be kept. -/
structure NoneUnbounded (P : Platform) (supplied : Parameters) (len : ℤ) : Prop where
  maxima : ∀ cl ∈ classes, cl.min P supplied len < 0 → len ≤ max 0 (cl.max P supplied len)
    ∨ minlens P supplied len ≤ 0 ∧ cl.min P supplied len = cl.max P supplied len
  minima : (∃ w, Admissible P supplied len w) →
    (∃ cl ∈ classes, cl.min P supplied len < 0) → ∀ cl ∈ classes, cl.min P supplied len ≤ 0

theorem NoneUnbounded.keepsLimits (h : NoneUnbounded P supplied len)
    (hlen : -2 ^ 31 ≤ len ∧ len < 2 ^ 31) (hpos : 0 ≤ len) (hw : Drawable P supplied len w) :
    KeepsLimits P supplied len w where
  maxima cl hcl := by
    obtain ⟨a, b, htally, hphase, hmin, hmax⟩ := hw.tally_le hcl
    have hbounds := cl.bounds P supplied hlen
    have hleft := cl.left_max P supplied hlen
    have hlength := Lib.tally_le_length cl.alpha w
    rw [hw.length] at hlength
    rcases lt_or_ge (cl.min P supplied len) 0 with hneg | hnonneg
    · rcases h.maxima cl hcl hneg with hlong | ⟨hsum, heq⟩
      · omega
      · omega
    · rw [Class.left_min] at hmin
      omega
  minima := by
    intro ⟨w', hw'⟩ cl hcl
    by_cases hneg : ∃ cl ∈ classes, cl.min P supplied len < 0
    · have := h.minima ⟨w', hw'⟩ hneg cl hcl
      omega
    · have hnonneg : ∀ cl ∈ classes, 0 ≤ cl.min P supplied len := fun cl hcl =>
        not_lt.mp fun hlt => hneg ⟨cl, hcl, hlt⟩
      have hsum : (classes.map (Class.min P supplied len)).sum ≤
          (classes.map fun cl => (tally cl.alpha w' : ℤ)).sum :=
        List.sum_le_sum fun cl hcl => (hw'.bounds cl hcl).1
      rw [← length_eq_tallies hw'.letters, hw'.length] at hsum
      exact (((drawable_iff hnonneg hpos hlen hsum).mp hw).bounds cl hcl).1

/-- Where every password keeps the limits, the condition holds. -/
theorem noneUnbounded_of_keepsLimits (hlen : -2 ^ 31 ≤ len ∧ len < 2 ^ 31) (hpos : 0 ≤ len)
    (hroom : Room (minlens P supplied len).toNat 0 len.toNat (limitsOf P supplied len))
    (h : ∀ w, Drawable P supplied len w → KeepsLimits P supplied len w) :
    NoneUnbounded P supplied len := by
  have hmaxima : ∀ cl ∈ classes, cl.min P supplied len < 0 → len ≤ max 0 (cl.max P supplied len)
      ∨ minlens P supplied len ≤ 0 ∧ cl.min P supplied len = cl.max P supplied len := by
    intro cl hcl hneg
    obtain ⟨w, hw, htally⟩ := exists_drawable hlen hcl hroom
    have hkept := (h w hw).maxima cl hcl
    have hbounds := cl.bounds P supplied hlen
    have hleft := cl.left_max P supplied hlen
    rw [Class.left_min] at htally
    omega
  refine ⟨hmaxima, ?_⟩
  intro ⟨w', hw'⟩ ⟨cl, hcl, hneg⟩ cl' hcl'
  by_contra hpositive
  have hmax := (hw'.bounds cl hcl).2
  -- the class with the negative minimum can have all letters
  obtain ⟨w, hw, htally⟩ := exists_drawable hlen hcl hroom
  have hbounds := cl.bounds P supplied hlen
  have hleft := cl.left_max P supplied hlen
  have hall : tally cl.alpha w = w.length := by
    have := hmaxima cl hcl hneg
    rw [Class.left_min] at htally
    rw [hw.length]
    omega
  have hne : cl ≠ cl' := by
    intro heq
    rw [heq] at hneg
    omega
  have hboth := Lib.tally_add_le (disjoint_of_ne hcl hcl' hne) w
  have hkept := (h w hw).minima ⟨w', hw'⟩ cl' hcl'
  omega

/-- **When the limits are kept** by every password that is made: none can be made, or no class has a
negative minimum that leaves it without a limit. -/
theorem limits_kept_iff (M : Machine P) (hpasses : spec.Passes P supplied) : ∃ len : ℤ,
    (supplied.get P .int (lit "length")).1 = some len
      ∧ (LimitsKept M supplied len ↔
        longest P supplied len < len ∨ NoneUnbounded P supplied len) := by
  obtain ⟨len, -, hget, -⟩ := careful_actOn M hpasses
  have hlen : (supplied.get P .int (lit "length")).1 = some len := by rw [hget]
  have hbounds := get_bounds hlen
  have hroom_iff := room_iff P supplied hbounds
  have hnonneg := longest_nonneg P supplied hbounds
  refine ⟨len, hlen, ?_⟩
  rcases lt_or_ge len 0 with hneg | hpos
  · have hadmissible {w : Bytes} (hw : Admissible P supplied len w) : False := by
      have := hw.length
      omega
    have hright : NoneUnbounded P supplied len :=
      ⟨fun cl _ _ => .inl (by omega), fun ⟨_, hw⟩ => (hadmissible hw).elim⟩
    refine ⟨fun _ => .inr hright, fun _ d w hmakes => ?_⟩
    obtain ⟨draws, hrun⟩ := hmakes
    rw [actOn_neg _ hlen hneg] at hrun
    exact nomatch (Prod.mk.inj hrun).1
  · constructor
    · intro h
      rcases lt_or_ge (longest P supplied len) len with hlong | hshort
      · exact .inl hlong
      · right
        refine noneUnbounded_of_keepsLimits hbounds hpos (hroom_iff.mpr hshort) fun w hw => ?_
        obtain ⟨d, hmakes⟩ := hw.makes hlen hpos M
        exact h (fun k => .ok (d k)) w hmakes
    · intro h d w hmakes
      have hroom := hmakes.room hlen hpos
      rcases h with hlong | hright
      · exact absurd (hroom_iff.mp hroom) (not_le.mpr hlong)
      · exact hright.keepsLimits hbounds hpos (hmakes.drawable hlen hpos hroom)

/-- The minima of four letters are kept. -/
theorem limits_kept_iff_four : LimitsKept dimMachine fourLetters 4 := by
  have hpasses : spec.Passes Platform.bare fourLetters := ⟨_, rfl, rfl⟩
  obtain ⟨len, hlen, hkept⟩ := limits_kept_iff dimMachine hpasses
  have hfour : (fourLetters.get Platform.bare .int (lit "length")).1 = some (4 : ℤ) := rfl
  obtain rfl : (4 : ℤ) = len := Option.some.inj (hfour.symm.trans hlen)
  have hnonneg : ∀ cl ∈ classes, 0 ≤ cl.min Platform.bare fourLetters 4 := by decide
  have hunbounded : NoneUnbounded Platform.bare fourLetters 4 := by
    refine ⟨?_, ?_⟩
    · intro cl hcl hneg
      exact absurd (hnonneg cl hcl) (not_le.mpr hneg)
    · intro _ hsome
      obtain ⟨cl, hcl, hneg⟩ := hsome
      exact absurd (hnonneg cl hcl) (not_le.mpr hneg)
  exact hkept.mpr (.inr hunbounded)

/-- `clipboard genpwd -- length 8 min_lower -5 max_lower 3`. -/
def negLower : Parameters where
  parameters := Std.TreeMap.ofList [(lit "length", lit "8"), (lit "min_lower", lit "-5"),
    (lit "max_lower", lit "3")]

/-- Eight letters of the class are made, where three are allowed. -/
theorem negLower_exceeds : spec.Passes Platform.bare negLower
    ∧ (negLower.get Platform.bare .int (lit "length")).1 = some (8 : ℤ)
    ∧ Class.max Platform.bare negLower 8 ⟨lit "lower", kLower⟩ = 3
    ∧ Makes (reading dimMachine fun _ => .ok 0) negLower (lit "aaaaaaaa")
    ∧ tally kLower (lit "aaaaaaaa") = 8 ∧ ¬ LimitsKept dimMachine negLower 8 := by
  have hmakes : Makes (reading dimMachine fun _ => .ok 0) negLower (lit "aaaaaaaa") := ⟨16, rfl⟩
  have hmax : Class.max Platform.bare negLower 8 ⟨lit "lower", kLower⟩ = 3 := by decide
  have hpasses : spec.Passes Platform.bare negLower := ⟨_, rfl, rfl⟩
  have htally : tally kLower (lit "aaaaaaaa") = 8 := by decide
  have hlen : (negLower.get Platform.bare .int (lit "length")).1 = some (8 : ℤ) := rfl
  refine ⟨hpasses, hlen, hmax, hmakes, htally, ?_⟩
  intro hkept
  have hmaxima := (hkept _ _ hmakes).maxima ⟨lit "lower", kLower⟩ (.head _)
  exact absurd hmaxima (by decide)

end Holchain.Holper.GeneratePasswordAction
