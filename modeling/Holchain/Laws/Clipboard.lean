import Holchain.Laws.Draws

/-!
# Laws.Clipboard — which passwords are made

A request gives each class of letters a limit (`limitsOf`). If both phases have room for the length,
the passwords are the words whose letters are picked from these limits (`Makes.drawable`,
`Drawable.makes`). With no number
negative these are the words that have between the minimum and the maximum of each class
(`passwords_exact`): what is drawn in the phase of the minima are exactly the minima, and what is
drawn behind is within what is left up to the maxima.
-/

namespace Holchain.Holper.GeneratePasswordAction

open Lib (tally Apart Over)
open ParamSpec (ParamDeclaration)

variable {P : Platform} {limits : List Limit} {m n : ℕ} {w : Bytes}

/-! ## Words within the limits -/

/-- Limits that are numbers, with alphabets apart. -/
structure Ready (limits : List Limit) : Prop where
  distinct : Distinct limits
  nonempty : ∀ limit ∈ limits, limit.alpha ≠ []
  range : ∀ limit ∈ limits, ∀ getter : Getter, 0 ≤ getter.get limit ∧ getter.get limit < 2 ^ 31
  small : (limits.map (·.alpha.length)).sum < 2 ^ 32

theorem Ready.counters (h : Ready limits) : Counters limits where
  distinct := h.distinct
  nonempty := h.nonempty
  range limit hlimit getter := by
    have hlen := h.range limit hlimit getter
    omega
  small := h.small

/-- A counter that is a number allows so many letters. -/
theorem Ready.left_eq (h : Ready limits) {limit : Limit} (hlimit : limit ∈ limits)
    (getter : Getter) : (left getter limit : ℤ) = getter.get limit := by
  have hlen := h.range limit hlimit getter
  unfold left
  omega

/-- Every letter is of a class, and each class has between its first number of letters and both
numbers together. -/
structure Within (limits : List Limit) (w : Bytes) : Prop where
  letters : Over (limits.map (·.alpha)) w
  bounds : ∀ limit ∈ limits, limit.first ≤ tally limit.alpha w
    ∧ (tally limit.alpha w : ℤ) ≤ limit.first + limit.second

/-- The letters of the minima are all there. -/
theorem Picked.within (h : Ready limits) (hm : m = capacity .min limits) (hlength : m ≤ w.length)
    (hpicked : Picked m 0 limits w) : Within limits w := by
  obtain ⟨hminima, hmaxima⟩ := hpicked
  rw [Nat.sub_zero] at hminima hmaxima
  have hsum := Lib.length_eq_sum h.distinct hminima.letters
  rw [List.length_take_of_le hlength, List.map_map] at hsum
  have hfirst : ∀ limit ∈ limits, tally limit.alpha (w.take m) = left .min limit :=
    Lib.eq_of_sum_eq hminima.counts (hsum.symm.trans hm)
  constructor
  · intro c hc
    rw [← List.take_append_drop m w] at hc
    exact (List.mem_append.mp hc).elim (hminima.letters c) (hmaxima.letters c)
  · intro limit hlimit
    have hmin : (left .min limit : ℤ) = limit.first := h.left_eq hlimit .min
    have hmax : (left .max limit : ℤ) = limit.second := h.left_eq hlimit .max
    have hcount := hmaxima.counts limit hlimit
    have htally := Lib.tally_append limit.alpha (w.take m) (w.drop m)
    rw [List.take_append_drop, hfirst limit hlimit] at htally
    omega

/-- A word within the limits has an order in which its letters are picked. -/
theorem Within.picked (h : Ready limits) (hm : m = capacity .min limits)
    (hwithin : Within limits w) : ∃ w', w'.Perm w ∧ Picked m 0 limits w' := by
  let quotas := limits.map fun limit => (left .min limit, limit.alpha)
  have halphas : quotas.map (·.2) = limits.map (·.alpha) := by
    rw [List.map_map]
    rfl
  have hover : Over (quotas.map (·.2)) w := halphas.symm ▸ hwithin.letters
  have hapart : Apart (quotas.map (·.2)) := halphas.symm ▸ h.distinct
  have hmin {limit : Limit} (hlimit : limit ∈ limits) : (left .min limit : ℤ) = limit.first :=
    h.left_eq hlimit .min
  obtain ⟨part, rest, hperm, hpart⟩ := Lib.exists_parts hapart hover fun q hq => by
    obtain ⟨limit, hlimit, rfl⟩ := List.mem_map.mp hq
    have hbound := (hwithin.bounds limit hlimit).1
    have := hmin hlimit
    dsimp only
    omega
  have hfirst (limit : Limit) (hlimit : limit ∈ limits) :
      tally limit.alpha part = left .min limit := hpart _ (List.mem_map_of_mem hlimit)
  have hpartOver : Over (limits.map (·.alpha)) part := fun c hc =>
    hwithin.letters c (hperm.mem_iff.mp (List.mem_append_left rest hc))
  have hlength : part.length = m := by
    have hall := Lib.length_eq_sum h.distinct hpartOver
    rw [List.map_map] at hall
    exact (hall.trans (congrArg List.sum (List.map_congr_left hfirst))).trans hm.symm
  refine ⟨part ++ rest, hperm, ?_, ?_⟩
  · rw [Nat.sub_zero, List.take_left' hlength]
    exact ⟨hpartOver, fun limit hlimit => le_of_eq (hfirst limit hlimit)⟩
  · rw [Nat.sub_zero, List.drop_left' hlength]
    refine ⟨fun c hc => hwithin.letters c (hperm.mem_iff.mp (List.mem_append_right part hc)), ?_⟩
    intro limit hlimit
    have hmax : (left .max limit : ℤ) = limit.second := h.left_eq hlimit .max
    have hbound := (hwithin.bounds limit hlimit).2
    have htally := Lib.tally_append limit.alpha part rest
    rw [Lib.tally_perm hperm, hfirst limit hlimit] at htally
    have := hmin hlimit
    omega

theorem Within.perm {w' : Bytes} (h : Within limits w) (hperm : w.Perm w') : Within limits w' where
  letters := h.letters.perm hperm
  bounds limit hlimit := by
    rw [← Lib.tally_perm hperm]
    exact h.bounds limit hlimit

/-! ## Requests -/

/-- A class of letters, with the name that its parameters have. -/
structure Class where
  name : Bytes
  alpha : Bytes

/-- The four classes. -/
def classes : List Class :=
  [⟨lit "lower", kLower⟩, ⟨lit "upper", kUpper⟩, ⟨lit "numeric", kNumeric⟩,
    ⟨lit "special", kSpecial⟩]

variable {supplied : Parameters} {len : ℤ} {cl : Class}

/-- The effective maximum: the length, if none is given. -/
def Class.max (P : Platform) (supplied : Parameters) (len : ℤ) (cl : Class) : ℤ :=
  given P supplied (lit "max_" ++ cl.name) len

/-- The effective minimum: 1, if none is given, and lowered to the maximum. -/
def Class.min (P : Platform) (supplied : Parameters) (len : ℤ) (cl : Class) : ℤ :=
  Min.min (given P supplied (lit "min_" ++ cl.name) 1) (cl.max P supplied len)

/-- **The passwords that are asked for.** -/
structure Admissible (P : Platform) (supplied : Parameters) (len : ℤ) (w : Bytes) : Prop where
  length : (w.length : ℤ) = len
  letters : ∀ c ∈ w, ∃ cl ∈ classes, c ∈ cl.alpha
  bounds : ∀ cl ∈ classes, cl.min P supplied len ≤ tally cl.alpha w
    ∧ (tally cl.alpha w : ℤ) ≤ cl.max P supplied len

/-- No number that is given is negative. -/
def NonNegative (P : Platform) (supplied : Parameters) : Prop :=
  ∀ d ∈ params, ∀ v : ℤ, (supplied.get P .int d.name).1 = some v → 0 ≤ v

/-- A machine with these draws. -/
def drawing (M : Machine P) (d : ℕ → UInt32) : Machine P :=
  { M with urandom := fun k => .ok (d k) }

/-- The action succeeds, and this password is what it hands on. -/
def Makes (M : Machine P) (supplied : Parameters) (w : Bytes) : Prop :=
  ∃ draws, (actOn M supplied).run.run {} = (.ok (.string (lit "success")),
    { effects := [.subprocess [lit "/usr/bin/xsel", lit "--input", lit "--clipboard"] w], draws })

/-! ### Limits of a request -/

/-- The limit of a class. -/
def Class.limit (P : Platform) (supplied : Parameters) (len : ℤ) (cl : Class) : Limit :=
  ⟨cl.min P supplied len, toInt32 (cl.max P supplied len - cl.min P supplied len), cl.alpha⟩

/-- The limits of a request. -/
def limitsOf (P : Platform) (supplied : Parameters) (len : ℤ) : List Limit :=
  classes.map (Class.limit P supplied len)

/-- The sum of the minima, as an `int`. -/
def minlens (P : Platform) (supplied : Parameters) (len : ℤ) : ℤ :=
  toInt32 (classes.map (Class.min P supplied len)).sum

theorem given_bounds (P : Platform) (supplied : Parameters) (name : Bytes) {default : ℤ}
    (h : -2 ^ 31 ≤ default ∧ default < 2 ^ 31) :
    -2 ^ 31 ≤ given P supplied name default ∧ given P supplied name default < 2 ^ 31 := by
  unfold given
  cases hget : (supplied.get P .int name).1 with
  | none => exact h
  | some v => exact get_bounds hget

/-- The limits of a class are numbers of type `int`. -/
theorem Class.bounds (P : Platform) (supplied : Parameters)
    (hlen : -2 ^ 31 ≤ len ∧ len < 2 ^ 31) (cl : Class) :
    -2 ^ 31 ≤ cl.min P supplied len ∧ cl.min P supplied len ≤ cl.max P supplied len
      ∧ cl.max P supplied len < 2 ^ 31 := by
  have hone : -2 ^ 31 ≤ (1 : ℤ) ∧ (1 : ℤ) < 2 ^ 31 := by decide
  have hmin := given_bounds P supplied (lit "min_" ++ cl.name) hone
  have hmax := given_bounds P supplied (lit "max_" ++ cl.name) hlen
  exact ⟨le_min hmin.1 hmax.1, min_le_right _ _, hmax.2⟩

theorem alphabets_nodup : (classes.map (·.alpha)).flatten.Nodup := by decide

/-- Limits of the classes are counters, if their numbers are of type `int`. -/
theorem counters_map {f : Class → Limit} (halpha : ∀ cl, (f cl).alpha = cl.alpha)
    (hrange : ∀ cl, ∀ getter : Getter, -2 ^ 31 ≤ getter.get (f cl) ∧ getter.get (f cl) < 2 ^ 31) :
    Counters (classes.map f) where
  distinct := by
    have halphas : (classes.map f).map (·.alpha) = classes.map (·.alpha) := by
      rw [List.map_map]
      exact List.map_congr_left fun cl _ => halpha cl
    rw [Distinct, halphas]
    exact (List.nodup_flatten.mp alphabets_nodup).2
  nonempty limit hlimit := by
    obtain ⟨cl, hcl, rfl⟩ := List.mem_map.mp hlimit
    have hne : ∀ cl ∈ classes, cl.alpha ≠ [] := by decide
    rw [halpha]
    exact hne cl hcl
  range limit hlimit getter := by
    obtain ⟨cl, -, rfl⟩ := List.mem_map.mp hlimit
    exact hrange cl getter
  small := by
    have hsmall : (classes.map (·.alpha.length)).sum < 2 ^ 32 := by decide
    have hlengths : (classes.map f).map (·.alpha.length) = classes.map (·.alpha.length) := by
      rw [List.map_map]
      exact List.map_congr_left fun cl _ => congrArg List.length (halpha cl)
    rw [hlengths]
    exact hsmall

theorem limitsOf_counters (P : Platform) (supplied : Parameters)
    (hlen : -2 ^ 31 ≤ len ∧ len < 2 ^ 31) :
    Counters (limitsOf P supplied len) := by
  apply counters_map
  · exact fun _ => rfl
  · intro cl getter
    have hbounds := cl.bounds P supplied hlen
    cases getter with
    | min =>
      simp only [Getter.get, Class.limit]
      omega
    | max => exact toInt32_bounds _

/-- How many letters the minimum allows. -/
theorem Class.left_min (P : Platform) (supplied : Parameters) (len : ℤ) (cl : Class) :
    left .min (cl.limit P supplied len) = (cl.min P supplied len % 2 ^ 32).toNat := rfl

/-- How many letters are allowed behind the minimum. -/
theorem Class.left_max (P : Platform) (supplied : Parameters)
    (hlen : -2 ^ 31 ≤ len ∧ len < 2 ^ 31) (cl : Class) :
    (left .max (cl.limit P supplied len) : ℤ) =
      cl.max P supplied len - cl.min P supplied len := by
  have hbounds := cl.bounds P supplied hlen
  simp only [left, Getter.get, Class.limit, toInt32_emod]
  omega

theorem capacity_max (P : Platform) (supplied : Parameters)
    (hlen : -2 ^ 31 ≤ len ∧ len < 2 ^ 31) :
    (capacity .max (limitsOf P supplied len) : ℤ) = (classes.map (Class.max P supplied len)).sum
      - (classes.map (Class.min P supplied len)).sum := by
  simp only [capacity, limitsOf, classes, List.map_cons, List.map_nil, List.sum_cons, List.sum_nil,
    Nat.cast_add, Class.left_max P supplied hlen]
  omega

/-- The phase of the minima has room. -/
theorem minlens_le (P : Platform) (supplied : Parameters) (len : ℤ) :
    (minlens P supplied len).toNat ≤ capacity .min (limitsOf P supplied len) := by
  have hemod := toInt32_emod (classes.map (Class.min P supplied len)).sum
  have hbounds := toInt32_bounds (classes.map (Class.min P supplied len)).sum
  rw [← minlens] at hemod hbounds
  simp only [capacity, limitsOf, classes, List.map_cons, List.map_nil, List.sum_cons,
    List.sum_nil, Class.left_min] at hemod ⊢
  omega

/-- **When there is room** for a password. -/
theorem room_iff (P : Platform) (supplied : Parameters)
    (hlen : -2 ^ 31 ≤ len ∧ len < 2 ^ 31) :
    Room (minlens P supplied len).toNat 0 len.toNat (limitsOf P supplied len) ↔
      len ≤ max 0 (minlens P supplied len) + ((classes.map (Class.max P supplied len)).sum
        - (classes.map (Class.min P supplied len)).sum) := by
  have hmin := minlens_le P supplied len
  have hmax := capacity_max P supplied hlen
  constructor
  · intro ⟨_, hsecond⟩
    omega
  · intro hle
    constructor
    · omega
    · omega

/-! ### The action -/

/-- The limits of a class as they are computed. -/
theorem effective_eq (P : Platform) (supplied : Parameters) (len : ℤ) (cl : Class) :
    effective (given P supplied (lit "min_" ++ cl.name) 1)
        (given P supplied (lit "max_" ++ cl.name) len) =
      (cl.min P supplied len, toInt32 (cl.max P supplied len - cl.min P supplied len)) := by
  have hfirst : (if given P supplied (lit "max_" ++ cl.name) len
      < given P supplied (lit "min_" ++ cl.name) 1 then given P supplied (lit "max_" ++ cl.name) len
      else given P supplied (lit "min_" ++ cl.name) 1) = cl.min P supplied len := by
    rw [Class.min, Class.max]
    split
    · omega
    · omega
  unfold effective
  rw [hfirst]
  rfl

/-- The sum of the minima wraps once. -/
theorem minlens_eq (a b c d : ℤ) :
    toInt32 (toInt32 (toInt32 (a + b) + c) + d) = toInt32 (a + (b + (c + (d + 0)))) := by
  unfold toInt32
  rw [Int.bmod_add_bmod, add_assoc (Int.bmod _ _), Int.bmod_add_bmod]
  congr 1
  omega

/-- The phase of the minima ends where their sum is reached. -/
theorem fill_toNat (M : Machine P) (minlens : ℤ) (i n : ℕ) (limits : List Limit) (result : Bytes) :
    fill M minlens i n limits result = fill M minlens.toNat i n limits result := by
  induction n generalizing i limits result with
  | zero => rfl
  | succ n ih =>
    have hphase : ((i : ℤ) < minlens) = ((i : ℤ) < (minlens.toNat : ℕ)) := propext (by omega)
    simp only [fill, ih, hphase]

/-- **The action generates a password and hands it on.** -/
theorem actOn_eq (M : Machine P) (hlen : (supplied.get P .int (lit "length")).1 = some len)
    (hpos : 0 ≤ len) :
    actOn M supplied = (do
      let password ← generate M (minlens P supplied len).toNat len.toNat (limitsOf P supplied len)
      .emit (.subprocess [lit "/usr/bin/xsel", lit "--input", lit "--clipboard"] password)
      return .string (lit "success")) := by
  have hnotneg : ¬ len < 0 := by omega
  have hlower := effective_eq P supplied len ⟨lit "lower", kLower⟩
  have hupper := effective_eq P supplied len ⟨lit "upper", kUpper⟩
  have hnumeric := effective_eq P supplied len ⟨lit "numeric", kNumeric⟩
  have hspecial := effective_eq P supplied len ⟨lit "special", kSpecial⟩
  unfold actOn
  rw [hlen]
  simp only [Body.deref, pure_bind, getordefault_eq, hlower, hupper, hnumeric, hspecial,
    if_neg hnotneg, minlens_eq]
  rw [fill_toNat]
  simp only [generate, bind_assoc]
  rfl

/-- A negative length is refused by the vector. -/
theorem actOn_neg (M : Machine P) (hlen : (supplied.get P .int (lit "length")).1 = some len)
    (hneg : len < 0) (trace : Trace P) :
    (actOn M supplied).run.run trace = (.error (.threw (lit "vector::reserve")), trace) := by
  unfold actOn
  rw [hlen]
  simp only [Body.deref, pure_bind, getordefault_eq, if_pos hneg]
  rfl

/-- A password is handed on. -/
theorem makes_of_run {M : Machine P} (hlen : (supplied.get P .int (lit "length")).1 = some len)
    (hpos : 0 ≤ len) {trace : Trace P} (hrun : (generate M (minlens P supplied len).toNat len.toNat
      (limitsOf P supplied len)).run.run {} = (.ok w, trace)) (heffects : trace.effects = []) :
    Makes M supplied w := by
  refine ⟨trace.draws, ?_⟩
  rw [actOn_eq M hlen hpos, run_bind_ok hrun]
  show (_, _) = _
  rw [heffects]
  rfl

/-- A run hands on one password. -/
theorem Makes.unique {M : Machine P} {w w' : Bytes} (h : Makes M supplied w)
    (h' : Makes M supplied w') : w = w' := by
  obtain ⟨draws, hrun⟩ := h
  obtain ⟨draws', hrun'⟩ := h'
  rw [hrun] at hrun'
  have htrace := (Prod.mk.inj hrun').2
  have heffects := congrArg Trace.effects htrace
  exact (Effect.subprocess.inj (List.cons.inj heffects).1).2

/-- The password has the length, and its letters are picked from the limits. -/
structure Drawable (P : Platform) (supplied : Parameters) (len : ℤ) (w : Bytes) : Prop where
  length : w.length = len.toNat
  picked : ∃ w', w'.Perm w
    ∧ Picked (minlens P supplied len).toNat 0 (limitsOf P supplied len) w'

section Makes

variable {M : Machine P} (hlen : (supplied.get P .int (lit "length")).1 = some len)
  (hpos : 0 ≤ len)
include hlen hpos

/-- Without room the action divides by zero. -/
theorem actOn_divides
    (hroom : ¬ Room (minlens P supplied len).toNat 0 len.toNat (limitsOf P supplied len)) :
    Divides M (actOn M supplied) := by
  rw [actOn_eq M hlen hpos]
  exact (generate_divides M (limitsOf_counters P supplied (get_bounds hlen)) hroom).bind

/-- If there is room, it has a result. -/
theorem actOn_answered
    (hroom : Room (minlens P supplied len).toNat 0 len.toNat (limitsOf P supplied len)) :
    Answered M (fun result => result = .string (lit "success"))
      ((actOn M supplied).run.run {}).1 := by
  have hcounters := limitsOf_counters P supplied (get_bounds hlen)
  obtain ⟨hanswered, -⟩ := generate_answers M hcounters hroom {}
  rw [actOn_eq M hlen hpos]
  rcases hrun : (generate M (minlens P supplied len).toNat len.toNat
    (limitsOf P supplied len)).run.run {} with ⟨r, trace⟩
  rw [hrun] at hanswered
  cases hanswered with
  | returned _ =>
    rw [run_bind_ok hrun]
    exact .returned rfl
  | threw hthrew =>
    rw [run_bind_error hrun]
    exact .threw hthrew

/-- A password that is made is picked, if there is room. -/
theorem Makes.drawable (h : Makes M supplied w)
    (hroom : Room (minlens P supplied len).toNat 0 len.toNat (limitsOf P supplied len)) :
    Drawable P supplied len w := by
  obtain ⟨hanswered, heffects⟩ :=
    generate_answers M (limitsOf_counters P supplied (get_bounds hlen)) hroom {}
  obtain ⟨draws, hmakes⟩ := h
  rw [actOn_eq M hlen hpos] at hmakes
  rcases hrun : (generate M (minlens P supplied len).toNat len.toNat
    (limitsOf P supplied len)).run.run {} with ⟨r, trace⟩
  rw [hrun] at hanswered heffects
  cases hanswered with
  | @returned w' hw' =>
    have hmade := makes_of_run hlen hpos hrun heffects
    rw [← actOn_eq M hlen hpos] at hmakes
    rw [Makes.unique ⟨draws, hmakes⟩ hmade]
    exact ⟨hw'.1, hw'.2⟩
  | threw _ =>
    rw [run_bind_error hrun] at hmakes
    exact nomatch (Prod.mk.inj hmakes).1

/-- No password is made without room. -/
theorem Makes.room (h : Makes M supplied w) :
    Room (minlens P supplied len).toNat 0 len.toNat (limitsOf P supplied len) := by
  by_contra hroom
  obtain ⟨draws, hmakes⟩ := h
  have hdivided := actOn_divides (M := M) hlen hpos hroom {}
  rw [hmakes] at hdivided
  cases hdivided

/-- Whatever is drawn, a password is made if there is room. -/
theorem makes_drawing
    (hroom : Room (minlens P supplied len).toNat 0 len.toNat (limitsOf P supplied len))
    (M : Machine P) (d : ℕ → UInt32) : ∃ w, Makes (drawing M d) supplied w := by
  have hcounters := limitsOf_counters P supplied (get_bounds hlen)
  have hanswers := generate_answers (drawing M d) hcounters hroom
  obtain ⟨w, trace, -, hrun, heffects⟩ := hanswers.returns (fun k => ⟨d k, rfl⟩) {}
  exact ⟨w, makes_of_run hlen hpos hrun heffects⟩

/-- **Every word that is picked is made** from some draws. -/
theorem Drawable.makes (h : Drawable P supplied len w) (M : Machine P) :
    ∃ d : ℕ → UInt32, Makes (drawing M d) supplied w := by
  obtain ⟨hlength, w', hperm, hpicked⟩ := h
  have hbounds := get_bounds hlen
  have hcounters := limitsOf_counters P supplied hbounds
  obtain ⟨draws, hyields⟩ := generate_reaches (P := P) hcounters hpicked hperm (by omega)
  rw [hlength] at hyields
  refine ⟨fun k => draws.getD k 0, makes_of_run hlen hpos (hyields _ {} ?_) rfl⟩
  intro j hj
  show Except.ok (draws.getD (0 + j) 0) = _
  rw [Nat.zero_add, List.getD_eq_getElem?_getD, List.getElem?_eq_getElem hj]
  rfl

end Makes

/-! ### Numbers that are not negative -/

theorem class_params : ∀ cl ∈ classes, (∃ d ∈ params, d.name = lit "min_" ++ cl.name)
    ∧ ∃ d ∈ params, d.name = lit "max_" ++ cl.name := by decide

theorem given_nonneg {name : Bytes} (hname : ∃ d ∈ params, d.name = name)
    (h : NonNegative P supplied) {default : ℤ} (hpos : 0 ≤ default) :
    0 ≤ given P supplied name default := by
  obtain ⟨d, hd, rfl⟩ := hname
  unfold given
  cases hget : (supplied.get P .int d.name).1 with
  | none => exact hpos
  | some v => exact h d hd v hget

theorem Class.min_nonneg (hcl : cl ∈ classes) (h : NonNegative P supplied) (hpos : 0 ≤ len) :
    0 ≤ cl.min P supplied len := by
  obtain ⟨hmin, hmax⟩ := class_params cl hcl
  exact le_min (given_nonneg hmin h (by decide)) (given_nonneg hmax h hpos)

theorem limitsOf_ready (h : ∀ cl ∈ classes, 0 ≤ cl.min P supplied len)
    (hlen : -2 ^ 31 ≤ len ∧ len < 2 ^ 31) : Ready (limitsOf P supplied len) where
  distinct := (limitsOf_counters P supplied hlen).distinct
  nonempty := (limitsOf_counters P supplied hlen).nonempty
  range limit hlimit getter := by
    obtain ⟨cl, hcl, rfl⟩ := List.mem_map.mp hlimit
    have hmin := h cl hcl
    have hbounds := cl.bounds P supplied hlen
    cases getter with
    | min =>
      simp only [Getter.get, Class.limit]
      omega
    | max =>
      simp only [Getter.get, Class.limit]
      rw [toInt32_eq (by omega) (by omega)]
      omega
  small := (limitsOf_counters P supplied hlen).small

theorem within_limitsOf (h : ∀ cl ∈ classes, 0 ≤ cl.min P supplied len)
    (hlen : -2 ^ 31 ≤ len ∧ len < 2 ^ 31) (hlength : (w.length : ℤ) = len) :
    Within (limitsOf P supplied len) w ↔ Admissible P supplied len w := by
  have hsecond {cl : Class} (hcl : cl ∈ classes) : (cl.limit P supplied len).second =
      cl.max P supplied len - cl.min P supplied len := by
    have hmin := h cl hcl
    have hbounds := cl.bounds P supplied hlen
    exact toInt32_eq (by omega) (by omega)
  constructor
  · rintro ⟨hover, hbounds⟩
    refine ⟨hlength, fun c hc => ?_, fun cl hcl => ?_⟩
    · obtain ⟨alphabet, halphabet, hin⟩ := hover c hc
      obtain ⟨limit, hlimit, rfl⟩ := List.mem_map.mp halphabet
      obtain ⟨cl, hcl, rfl⟩ := List.mem_map.mp hlimit
      exact ⟨cl, hcl, hin⟩
    · have hbound := hbounds _ (List.mem_map_of_mem hcl)
      rw [hsecond hcl] at hbound
      simp only [Class.limit] at hbound
      omega
  · rintro ⟨-, hletters, hbounds⟩
    constructor
    · intro c hc
      obtain ⟨cl, hcl, hin⟩ := hletters c hc
      exact ⟨cl.alpha, List.mem_map.mpr ⟨_, List.mem_map_of_mem hcl, rfl⟩, hin⟩
    · intro limit hlimit
      obtain ⟨cl, hcl, rfl⟩ := List.mem_map.mp hlimit
      have hbound := hbounds cl hcl
      rw [hsecond hcl]
      simp only [Class.limit]
      omega

/-- The minima are as many as their counters allow, if their sum does not overflow. -/
theorem minlens_capacity (h : ∀ cl ∈ classes, 0 ≤ cl.min P supplied len)
    (hmin : (classes.map (Class.min P supplied len)).sum < 2 ^ 31) :
    (minlens P supplied len).toNat = capacity .min (limitsOf P supplied len)
      ∧ minlens P supplied len = (classes.map (Class.min P supplied len)).sum := by
  have hlower := h ⟨lit "lower", kLower⟩ (.head _)
  have hupper := h ⟨lit "upper", kUpper⟩ (.tail _ (.head _))
  have hnumeric := h ⟨lit "numeric", kNumeric⟩ (.tail _ (.tail _ (.head _)))
  have hspecial := h ⟨lit "special", kSpecial⟩ (.tail _ (.tail _ (.tail _ (.head _))))
  have hsum : minlens P supplied len = (classes.map (Class.min P supplied len)).sum := by
    refine toInt32_eq ?_ hmin
    simp only [classes, List.map_cons, List.map_nil, List.sum_cons, List.sum_nil]
    omega
  refine ⟨?_, hsum⟩
  rw [hsum]
  simp only [capacity, limitsOf, classes, List.map_cons, List.map_nil, List.sum_cons, List.sum_nil,
    Class.left_min] at hmin ⊢
  omega

/-- The words that are picked are those that are asked for. -/
theorem drawable_iff (h : ∀ cl ∈ classes, 0 ≤ cl.min P supplied len) (hpos : 0 ≤ len)
    (hlen : -2 ^ 31 ≤ len ∧ len < 2 ^ 31) (hmin : (classes.map (Class.min P supplied len)).sum ≤ len) :
    Drawable P supplied len w ↔ Admissible P supplied len w := by
  have hready := limitsOf_ready h hlen
  obtain ⟨hm, hsum⟩ := minlens_capacity h (lt_of_le_of_lt hmin hlen.2)
  constructor
  · intro ⟨hlength, w', hperm, hpicked⟩
    have hlength' := hperm.length_eq
    exact (within_limitsOf h hlen (by omega)).mp
      ((hpicked.within hready hm (by omega)).perm hperm)
  · intro hw
    have hlength := hw.length
    exact ⟨by omega, ((within_limitsOf h hlen hlength).mpr hw).picked hready hm⟩

/-- **Which passwords are made.** Whatever is drawn, the action succeeds; and the passwords that it
makes from some draws are those that are asked for. -/
theorem passwords_exact (M : Machine P) (hpasses : spec.Passes P supplied)
    (h : NonNegative P supplied) : ∃ len : ℤ,
      (supplied.get P .int (lit "length")).1 = some len
        ∧ ((classes.map (Class.min P supplied len)).sum ≤ len →
          len ≤ (classes.map (Class.max P supplied len)).sum →
          (∀ d : ℕ → UInt32, ∃ w, Makes (drawing M d) supplied w)
            ∧ ∀ w, (∃ d : ℕ → UInt32, Makes (drawing M d) supplied w) ↔
              Admissible P supplied len w) := by
  obtain ⟨len, -, hget, -⟩ := careful_actOn M hpasses
  have hlen : (supplied.get P .int (lit "length")).1 = some len := by rw [hget]
  refine ⟨len, hlen, fun hmin hmax => ?_⟩
  have hbounds := get_bounds hlen
  have hlength : (⟨.int, lit "length", .ofList [lit "length"], lit "password length"⟩
    : ParamDeclaration) ∈ params := List.mem_append_right _ (List.mem_singleton_self _)
  have hpos : 0 ≤ len := h _ hlength len hlen
  have hnonneg : ∀ cl ∈ classes, 0 ≤ cl.min P supplied len := fun cl hcl =>
    cl.min_nonneg hcl h hpos
  have hsum := (minlens_capacity hnonneg (lt_of_le_of_lt hmin hbounds.2)).2
  have hroom := (room_iff P supplied hbounds).mpr (by omega)
  refine ⟨fun d => ?_, fun w => ?_⟩
  · exact makes_drawing hlen hpos hroom M d
  · rw [← drawable_iff hnonneg hpos hbounds hmin]
    constructor
    · intro ⟨d, hmakes⟩
      exact hmakes.drawable hlen hpos hroom
    · exact fun hdrawable => hdrawable.makes hlen hpos M

/-- `clipboard genpwd -- length 4`. -/
def fourLetters : Parameters := { parameters := Std.TreeMap.ofList [(lit "length", lit "4")] }

theorem fourLetters_nonNegative : NonNegative Platform.bare fourLetters := by
  have hall : ∀ d ∈ params, ((fourLetters.get Platform.bare .int d.name).1.all
      fun v : ℤ => decide (0 ≤ v)) = true := by decide
  intro d hd v hv
  have hdecide := hall d hd
  rw [hv] at hdecide
  exact of_decide_eq_true hdecide

theorem fourLetters_admissible : Admissible Platform.bare fourLetters 4 (lit "!1Bz") where
  length := rfl
  letters c hc := by
    have hall : ((lit "!1Bz").all fun c => classes.any fun cl => decide (c ∈ cl.alpha)) = true := by
      decide
    obtain ⟨cl, hcl, hin⟩ := List.any_eq_true.mp (List.all_eq_true.mp hall c hc)
    exact ⟨cl, hcl, of_decide_eq_true hin⟩
  bounds := by decide

/-- One letter of each class is made there. -/
theorem passwords_exact_four :
    ∃ d : ℕ → UInt32, Makes (drawing dimMachine d) fourLetters (lit "!1Bz") := by
  have hpasses : spec.Passes Platform.bare fourLetters := ⟨_, rfl, rfl⟩
  obtain ⟨len, hlen, hexact⟩ := passwords_exact dimMachine hpasses fourLetters_nonNegative
  have hfour : (fourLetters.get Platform.bare .int (lit "length")).1 = some (4 : ℤ) := rfl
  obtain rfl : (4 : ℤ) = len := Option.some.inj (hfour.symm.trans hlen)
  have hmin : (classes.map (Class.min Platform.bare fourLetters 4)).sum ≤ 4 := by decide
  have hmax : 4 ≤ (classes.map (Class.max Platform.bare fourLetters 4)).sum := by decide
  exact ((hexact hmin hmax).2 (lit "!1Bz")).mpr fourLetters_admissible

end Holchain.Holper.GeneratePasswordAction
