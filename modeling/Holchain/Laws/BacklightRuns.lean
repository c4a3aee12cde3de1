import Holchain.Holper.Backlight
import Holchain.Laws.Backlight
import Holchain.Lib.Snapshot

/-!
# Laws.BacklightRuns — the brightness over many requests

Every reply tells a brightness that the device had and the one that was written, which the operation
makes of it; both are in the range of the device. Requests that overlap may lose an update: the old
brightness of a reply need not be the new one of the reply before it. It is where a worker reads only
when no other one has read (`backlight_interleaved`).
-/

namespace Holchain.Holper.KeyboardBacklightAction

open Lib (System)
open Lib.Snapshot (Report values)

variable {P : Platform} {W : Type} {M : Machine P} {max start old : ℤ} {supplied : Parameters}

/-! ## The device -/

theorem parse_shown {M : Machine P} {path : Bytes} {n : ℤ} (hn : IsInt n)
    (hpath : M.sysfs path = shown n) : Filesystem.parse M path = some n := by
  rw [Filesystem.parse, hpath, shown, scanInt_decimal hn rfl]
  rfl

theorem parse_brightness (hold : IsInt old) :
    Filesystem.parse (device M max old) (kPath ++ lit "/brightness") = some old :=
  parse_shown hold (by simp [device])

theorem parse_max (hmax : IsInt max) :
    Filesystem.parse (device M max old) (kPath ++ lit "/max_brightness") = some max := by
  refine parse_shown hmax ?_
  have hother : (kPath ++ lit "/max_brightness" == kPath ++ lit "/brightness") = false := by decide
  rw [device]
  dsimp only
  rw [hother, if_neg Bool.false_ne_true, if_pos (beq_self_eq_true _)]

/-- A number in the range of a device. -/
def InRange (max n : ℤ) : Prop := 0 ≤ n ∧ n ≤ max

theorem InRange.isInt {n : ℤ} (h : InRange max n) (hmax : IsInt max) : IsInt n :=
  ⟨by have := h.1; omega, h.2.trans_lt hmax.2⟩

/-- An operation stays in the range of the device. -/
theorem Operation.inRange (hmax : 0 ≤ max) (op : Operation) (old : ℤ) : InRange max (op.target old max) := by
  unfold InRange
  cases op with
  | on => exact ⟨hmax, le_refl max⟩
  | off => exact ⟨le_refl 0, hmax⟩
  | toggle =>
    rw [Operation.target]
    split
    · exact ⟨le_refl 0, hmax⟩
    · exact ⟨hmax, le_refl max⟩
  | set n =>
    rw [Operation.target, clampInt_eq hmax]
    omega
  | incr n =>
    rw [Operation.target, clampInt_eq hmax]
    omega

/-! ## Requests -/

/-- A step that a request is accepted for. -/
def Accepted (P : Platform) : Label W → Prop
  | .read _ supplied => spec.Passes P supplied
  | .write _ => True

/-- A worker reads where no other one has read. -/
def Alone (s : State W) : Label W → Prop
  | .read _ _ => ∀ worker, s.running worker = none
  | .write _ => True

/-- What is replied for an update. -/
def answer (r : Report Operation ℤ) : Json :=
  .object [(lit "old_brightness", .int r.old), (lit "new_brightness", .int r.new)]

/-- A reply tells an update. -/
def Tells (P : Platform) (reply : Reply W) (r : Report Operation ℤ) : Prop :=
  r.op.Given P reply.supplied ∧ reply.result = .ok (answer r)

/-- A worker performs an operation, and holds what it has read. -/
def Performs (M : Machine P) (max : ℤ) (running : Option (Parameters × ℤ))
    (held : Option (Operation × ℤ)) : Prop :=
  (running = none ∧ held = none) ∨ ∃ supplied op old, running = some (supplied, old)
    ∧ held = some (op, old) ∧ op.Given P supplied
    ∧ actOn (device M max old) supplied = perform old max op

/-- The workers update the brightness. -/
structure Updates (M : Machine P) (max : ℤ) (s : State W) (t : Lib.Snapshot.State W Operation ℤ) :
    Prop where
  range : InRange max s.brightness
  value : t.value = s.brightness
  held : ∀ worker, Performs M max (s.running worker) (t.held worker)
  replies : List.Forall₂ (Tells P) s.replies t.reports

/-- What an operation makes of a brightness. -/
def effect (max : ℤ) (op : Operation) (old : ℤ) : ℤ := op.target old max

section Steps

variable [DecidableEq W] {s s' : State W} {t : Lib.Snapshot.State W Operation ℤ} {l : Label W}

/-- What a step can do. -/
theorem step_cases (h : step M max s l = some s') :
    (∃ worker supplied, l = .read worker supplied ∧ s.running worker = none
      ∧ s' = { s with running := Function.update s.running worker (some (supplied, s.brightness)) })
    ∨ ∃ worker supplied old, l = .write worker ∧ s.running worker = some (supplied, old) ∧ s' = {
        brightness := ((actOn (device M max old) supplied).run.run {}).2.effects.foldl stored s.brightness
        running := Function.update s.running worker none
        replies := s.replies ++
          [⟨worker, supplied, ((actOn (device M max old) supplied).run.run {}).1⟩] } := by
  cases l with
  | read worker supplied =>
    cases hrunning : s.running worker with
    | none => exact .inl ⟨worker, supplied, rfl, hrunning, by simpa [step, hrunning] using h.symm⟩
    | some _ => simp [step, hrunning] at h
  | write worker =>
    cases hrunning : s.running worker with
    | none => simp [step, hrunning] at h
    | some running =>
      exact .inr ⟨worker, running.1, running.2, rfl, hrunning, by simpa [step, hrunning] using h.symm⟩

/-- An operation writes and replies what it makes of the brightness that was read. -/
theorem run_perform {old : ℤ} {op : Operation}
    (h : actOn (device M max old) supplied = perform old max op) :
    (actOn (device M max old) supplied).run.run {} =
      (.ok (answer ⟨op, old, effect max op old⟩),
        { effects := [.dump (kPath ++ lit "/brightness") (effect max op old)] }) := by
  rw [h]
  rfl

/-- **A step of a worker is a step of an update.** -/
theorem Updates.step (hmax : IsInt max) (h : Updates M max s t) (hok : Accepted P l)
    (hstep : step M max s l = some s') : ∃ l' t', (Alone s l → Lib.Snapshot.Alone t l')
      ∧ Lib.Snapshot.step (effect max) t l' = some t' ∧ Updates M max s' t' := by
  have hidle (worker : W) (hnone : s.running worker = none) : t.held worker = none := by
    rcases h.held worker with ⟨-, hheld⟩ | ⟨supplied, op, old, hrunning, -⟩
    · exact hheld
    · rw [hnone] at hrunning
      cases hrunning
  have hperforms {worker : W} {running : Option (Parameters × ℤ)} {held : Option (Operation × ℤ)}
      (hnew : Performs M max running held) (worker' : W) :
      Performs M max (Function.update s.running worker running worker')
        (Function.update t.held worker held worker') := by
    by_cases hworker : worker' = worker
    · subst hworker
      rwa [Function.update_self, Function.update_self]
    · rw [Function.update_of_ne hworker, Function.update_of_ne hworker]
      exact h.held worker'
  obtain ⟨worker, supplied, rfl, hnone, rfl⟩ | ⟨worker, supplied, old, rfl, hrunning, rfl⟩ :=
    step_cases hstep
  · obtain ⟨op, -, hgiven, hact⟩ := actOn_eq_perform (device M max s.brightness) (parse_max hmax)
      (parse_brightness (h.range.isInt hmax)) hok
    refine ⟨.read worker op, { t with held := Function.update t.held worker (some (op, t.value)) },
      fun halone worker' => hidle worker' (halone worker'), ?_, h.range, h.value, hperforms ?_, h.replies⟩
    · simp [Lib.Snapshot.step, hidle worker hnone]
    · exact .inr ⟨supplied, op, s.brightness, rfl, by rw [h.value], hgiven, hact⟩
  · obtain ⟨hnone, -⟩ | ⟨supplied', op, old', hsome, hheld, hgiven, hact⟩ := h.held worker
    · rw [hnone] at hrunning
      cases hrunning
    · obtain ⟨rfl, rfl⟩ := Prod.mk.inj (Option.some.inj (hsome.symm.trans hrunning))
      have hnew : InRange max (effect max op old') := op.inRange (h.range.1.trans h.range.2) old'
      rw [run_perform hact]
      refine ⟨.write worker, {
        value := effect max op old'
        held := Function.update t.held worker none
        reports := t.reports ++ [⟨op, old', effect max op old'⟩] }, fun _ => trivial, ?_, ?_, ?_,
        hperforms (.inl ⟨rfl, rfl⟩), ?_⟩
      · simp [Lib.Snapshot.step, hheld]
      · simpa [stored] using hnew
      · simp [stored]
      · exact List.rel_append h.replies (.cons ⟨hgiven, rfl⟩ .nil)

end Steps

/-! ## Runs -/

section Runs

variable [DecidableEq W] {s : State W}

/-- A run is one of updates, which do not overlap where its requests do not. -/
theorem exists_updates (hrange : InRange max start) (hmax : IsInt max)
    {ok : State W → Label W → Prop} (hok : ∀ s l, ok s l → Accepted P l)
    (h : (system M max start).Reach ok s) :
    ∃ t, (Lib.Snapshot.system (effect max) start).Reach
        (fun t l => (∀ s l, ok s l → Alone s l) → Lib.Snapshot.Alone t l) t
      ∧ Updates M max s t := by
  refine System.Reach.related (R := Updates M max) ?_ ?_ h
  · rintro s rfl
    exact ⟨Lib.Snapshot.initial start, rfl, hrange, rfl, fun _ => .inl ⟨rfl, rfl⟩, .nil⟩
  · intro s s' l t hupdates hl hstep
    obtain ⟨l', t', halone, hstep', hupdates'⟩ := hupdates.step hmax (hok s l hl) hstep
    exact ⟨l', t', fun hserial => halone (hserial s l hl), hstep', hupdates'⟩

/-- **The brightness over many requests**, of any number of workers and in any order of their steps.
Every reply tells an update by the operation of its request, of a brightness that the device had
before, to one that is in its range, and the last one is the brightness. Where no two requests overlap
the old brightness of a reply is the new one of the reply before it. -/
theorem backlight_interleaved (M : Machine P) (hrange : InRange max start) (hmax : IsInt max)
    {ok : State W → Label W → Prop} (hok : ∀ s l, ok s l → Accepted P l)
    (h : (system M max start).Reach ok s) :
    InRange max s.brightness ∧ ∃ reports : List (Report Operation ℤ),
      List.Forall₂ (Tells P) s.replies reports
        ∧ (∀ r ∈ reports, r.new = r.op.target r.old max ∧ InRange max r.old ∧ InRange max r.new)
        ∧ (values start reports).getLast? = some s.brightness
        ∧ (∀ (i : ℕ) r, reports[i]? = some r → r.old ∈ (values start reports).take (i + 1))
        ∧ ((∀ s l, ok s l → Alone s l) →
          (∀ (i : ℕ) r, reports[i]? = some r → (values start reports)[i]? = some r.old)
            ∧ s.brightness = reports.foldl (fun v r => r.op.target v max) start) := by
  obtain ⟨t, hreach, hupdates⟩ := exists_updates hrange hmax hok h
  have hreported := Lib.Snapshot.Reach.reported hreach
  have hvalues : ∀ v ∈ values start t.reports, InRange max v :=
    hreported.keep hrange fun op v _ => op.inRange (hrange.1.trans hrange.2) v
  refine ⟨hupdates.range, t.reports, hupdates.replies, fun r hr => ⟨hreported.news r hr, ?_, ?_⟩, ?_,
    hreported.olds, fun hserial => ?_⟩
  · obtain ⟨i, hi⟩ := List.mem_iff_getElem?.mp hr
    exact hvalues r.old (List.mem_of_mem_take (hreported.olds i r hi))
  · exact hvalues r.new (List.mem_cons_of_mem start (List.mem_map_of_mem hr))
  · rw [← hupdates.value]
    exact hreported.value
  · have hchained := Lib.Snapshot.Reach.chained (fun _ _ halone => halone hserial) hreach
    exact ⟨hchained.before, hupdates.value.symm.trans hchained.folded⟩

/-- Two workers that increment a brightness of 3. -/
def twoIncrements : List (Label Bool) :=
  [.read false (increment "1"), .read true (increment "1"), .write false, .write true]

/-- One of the increments is lost. -/
theorem backlight_interleaved_two : ∃ s : State Bool, s.brightness = 4 ∧ ∃ reports,
    List.Forall₂ (Tells Platform.bare) s.replies reports
      ∧ ∀ r ∈ reports, r.new = r.op.target r.old 7 ∧ InRange 7 r.old ∧ InRange 7 r.new := by
  have hpasses : spec.Passes Platform.bare (increment "1") := ⟨_, rfl, rfl⟩
  obtain ⟨s, hrun, hbrightness⟩ : ∃ s, (system dimMachine 7 3).run ⟨3, fun _ => none, []⟩ twoIncrements
      = some s ∧ s.brightness = 4 := ⟨_, rfl, rfl⟩
  have hreach : (system dimMachine 7 3).Reach (fun _ l => Accepted Platform.bare l) s := by
    refine (System.Reach.init rfl).run (fun l hl _ => ?_) hrun
    simp only [twoIncrements, List.mem_cons, List.not_mem_nil, or_false] at hl
    rcases hl with rfl | rfl | rfl | rfl
    · exact hpasses
    · exact hpasses
    · trivial
    · trivial
  obtain ⟨-, reports, htells, hnew, -⟩ :=
    backlight_interleaved dimMachine ⟨by decide, by decide⟩ ⟨by decide, by decide⟩ (fun _ _ hl => hl) hreach
  exact ⟨s, hbrightness, reports, htells, hnew⟩

end Runs

end Holchain.Holper.KeyboardBacklightAction
