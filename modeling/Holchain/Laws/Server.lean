import Holchain.Holper.Server

/-!
# Laws.Server — the last one to bind is the one that is reached

Daemons that are started on one path may remove each other's sockets, and some of them may end in an
exception; but when all of them have come to their loops or their ends, clients reach just one
(`one_is_reached`). A daemon that has lost its path does not get it back, and one that is started
alone gets the path from whoever has it (`takes_over`).
-/

namespace Holchain.Holper.Server

open Lib (System)

variable {S : Type} [DecidableEq S] {path : S → Path} {files : Path → Option Leftover}
  {s t : State S} {p : Path} {i j : S}

/-! ## Steps -/

/-- The calls that are left, but for the loop. -/
def Phase.rank : Phase → ℕ
  | .stat => 6
  | .unlink => 5
  | .socket => 4
  | .notify => 3
  | .bind => 2
  | .listen => 1
  | .accept => 0
  | .thrown _ => 0
  | .killed => 0

theorem Phase.rank_le (ph : Phase) : ph.rank ≤ 6 := by
  cases ph with
  | thrown what => exact Nat.zero_le 6
  | _ => decide

/-- What a step can be. -/
inductive Does (path : S → Path) (s : State S) : Label S → State S → Prop
  | start {i : S} : s.phase i = none → Does path s (.start i) (s.goto i .stat)
  | absent {i : S} : s.phase i = some .stat →
      s.entry (path i) = none ∨ s.entry (path i) = some (.leftover .dangling) →
      Does path s (.call i) (s.goto i .socket)
  | present {i : S} {e : Entry S} : s.phase i = some .stat → s.entry (path i) = some e →
      e ≠ .leftover .dangling → Does path s (.call i) (s.goto i .unlink)
  | refused {i : S} {what : Bytes} : s.phase i = some .unlink →
      s.entry (path i) = none ∨ s.entry (path i) = some (.leftover .directory) →
      Does path s (.call i) (s.goto i (.thrown what))
  | removed {i : S} {e : Entry S} : s.phase i = some .unlink → s.entry (path i) = some e →
      e ≠ .leftover .directory → Does path s (.call i) ((s.setEntry (path i) none).goto i .socket)
  | made {i : S} : s.phase i = some .socket → Does path s (.call i) (s.goto i .notify)
  | told {i : S} : s.phase i = some .notify → Does path s (.call i) (s.goto i .bind)
  | long {i : S} {what : Bytes} : s.phase i = some .bind → sunPathSize ≤ (path i).val.length →
      Does path s (.call i) (s.goto i (.thrown what))
  | bound {i : S} : s.phase i = some .bind → s.entry (path i) = none →
      Does path s (.call i) ((s.setEntry (path i) (some (.socket i))).goto i .listen)
  | occupied {i : S} {e : Entry S} {what : Bytes} : s.phase i = some .bind → s.entry (path i) = some e →
      Does path s (.call i) (s.goto i (.thrown what))
  | listens {i : S} : s.phase i = some .listen → Does path s (.call i) (s.goto i .accept)
  | fails {i : S} {ph : Phase} {errno what : Bytes} : s.phase i = some ph → 1 ≤ ph.rank →
      Does path s (.fail i errno) (s.goto i (.thrown what))
  | killed {i : S} {ph : Phase} : s.phase i = some ph → Does path s (.kill i) (s.goto i .killed)

theorem does_stat (h : s.phase i = some .stat) : Does path s (.call i) (stat s (path i) i) := by
  unfold stat
  split
  next hentry => exact .absent h (.inl hentry)
  next hentry => exact .absent h (.inr hentry)
  next e hne hentry =>
    apply Does.present h hentry
    rintro rfl
    exact hne rfl

theorem does_unlink (h : s.phase i = some .unlink) :
    Does path s (.call i) (unlink s (path i) i) := by
  unfold unlink
  split
  next hentry => exact .refused h (.inl hentry)
  next hentry => exact .refused h (.inr hentry)
  next e hne hentry =>
    apply Does.removed h hentry
    rintro rfl
    exact hne rfl

theorem does_bind (h : s.phase i = some .bind) : Does path s (.call i) (bind s (path i) i) := by
  unfold bind
  split
  next hlong => exact .long h hlong
  next =>
    split
    next hentry => exact .bound h hentry
    next e hentry => exact .occupied h hentry

/-- **A step is one of these.** -/
theorem does_of_step {l : Label S} (h : step path s l = some t) : Does path s l t := by
  cases l with
  | start i =>
    obtain ⟨hphase, heq⟩ := Option.ite_none_right_eq_some.mp h
    cases heq
    exact .start hphase
  | call i =>
    obtain ⟨ph, hphase, hcall⟩ := Option.bind_eq_some_iff.mp h
    cases ph with
    | stat =>
      cases hcall
      exact does_stat hphase
    | unlink =>
      cases hcall
      exact does_unlink hphase
    | socket =>
      cases hcall
      exact .made hphase
    | notify =>
      cases hcall
      exact .told hphase
    | bind =>
      cases hcall
      exact does_bind hphase
    | listen =>
      cases hcall
      exact .listens hphase
    | accept => cases hcall
    | thrown what => cases hcall
    | killed => cases hcall
  | fail i errno =>
    obtain ⟨what, hfailure, rfl⟩ := Option.map_eq_some_iff.mp h
    obtain ⟨ph, hphase, hfail⟩ := Option.bind_eq_some_iff.mp hfailure
    cases ph with
    | socket => exact .fails hphase (by decide)
    | listen => exact .fails hphase (by decide)
    | _ => cases hfail
  | kill i =>
    obtain ⟨ph, hphase, rfl⟩ := Option.map_eq_some_iff.mp h
    exact .killed hphase

/-! ### What a step changes -/

section Frame

variable (s : State S) (p : Path) (i : S) (ph : Phase) (entry : Option (Entry S))

@[simp] theorem goto_self : (s.goto i ph).phase i = some ph := Function.update_self ..

@[simp] theorem goto_entry : (s.goto i ph).entry = s.entry := rfl

omit [DecidableEq S] in
@[simp] theorem setEntry_self : (s.setEntry p entry).entry p = entry := Function.update_self ..

omit [DecidableEq S] in
@[simp] theorem setEntry_phase : (s.setEntry p entry).phase = s.phase := rfl

end Frame

@[simp] theorem goto_of_ne (h : j ≠ i) (s : State S) (ph : Phase) :
    (s.goto i ph).phase j = s.phase j := Function.update_of_ne h ..

omit [DecidableEq S] in
@[simp] theorem setEntry_of_ne {q : Path} (h : q ≠ p) (s : State S) (entry : Option (Entry S)) :
    (s.setEntry p entry).entry q = s.entry q := Function.update_of_ne h ..

/-- Whose step it is. -/
def Label.server : Label S → S
  | .start i => i
  | .call i => i
  | .fail i _ => i
  | .kill i => i

/-- The calls that a step is. -/
def Label.calls : Label S → ℕ
  | .call _ => 1
  | _ => 0

omit [DecidableEq S] in
theorem lower {old ph : Phase} {n : ℕ} (hold : s.phase i = some old) (h : ph.rank + n ≤ old.rank) :
    ∀ old', s.phase i = some old' → ph.rank + n ≤ old'.rank := by
  intro old' hold'
  cases hold.symm.trans hold'
  exact h

/-- Only this daemon moves; it does not go back, and a call is one less that is left. -/
theorem Does.phase {l : Label S} (h : Does path s l t) : ∃ ph,
    t.phase = Function.update s.phase l.server (some ph)
      ∧ ∀ old, s.phase l.server = some old → ph.rank + l.calls ≤ old.rank := by
  cases h with
  | start hnone =>
    refine ⟨_, rfl, fun old hold => ?_⟩
    cases hnone.symm.trans hold
  | absent hphase => exact ⟨_, rfl, lower hphase (Nat.le_succ 5)⟩
  | present hphase => exact ⟨_, rfl, lower hphase le_rfl⟩
  | refused hphase => exact ⟨_, rfl, lower hphase (Nat.le_add_left 1 4)⟩
  | removed hphase => exact ⟨_, rfl, lower hphase le_rfl⟩
  | made hphase => exact ⟨_, rfl, lower hphase le_rfl⟩
  | told hphase => exact ⟨_, rfl, lower hphase le_rfl⟩
  | long hphase => exact ⟨_, rfl, lower hphase (Nat.le_add_left 1 1)⟩
  | bound hphase => exact ⟨_, rfl, lower hphase le_rfl⟩
  | occupied hphase => exact ⟨_, rfl, lower hphase (Nat.le_add_left 1 1)⟩
  | listens hphase => exact ⟨_, rfl, lower hphase le_rfl⟩
  | fails hphase => exact ⟨_, rfl, lower hphase (Nat.zero_le _)⟩
  | killed hphase => exact ⟨_, rfl, lower hphase (Nat.zero_le _)⟩

/-- An entry is removed or bound by a daemon with this path. -/
theorem Does.entry {l : Label S} (h : Does path s l t) (p : Path) : t.entry p = s.entry p
    ∨ (path l.server = p ∧ (t.entry p = none
      ∨ (t.entry p = some (.socket l.server) ∧ s.phase l.server = some .bind
        ∧ t.phase l.server = some .listen))) := by
  cases h with
  | @removed i e hphase hentry hne =>
    by_cases hp : p = path i
    · subst hp
      exact .inr ⟨rfl, .inl (setEntry_self ..)⟩
    · exact .inl (setEntry_of_ne hp ..)
  | @bound i hphase hentry =>
    by_cases hp : p = path i
    · subst hp
      exact .inr ⟨rfl, .inr ⟨setEntry_self .., hphase, goto_self ..⟩⟩
    · exact .inl (setEntry_of_ne hp ..)
  | _ => exact .inl rfl

/-! ## Daemons that have bound -/

/-- It is behind its `bind`. -/
def Past (s : State S) (i : S) : Prop := ∃ ph, s.phase i = some ph ∧ ph.rank ≤ 1

theorem Past.step {l : Label S} (h : Past s i) (hstep : Does path s l t) : Past t i := by
  obtain ⟨old, hold, hrank⟩ := h
  obtain ⟨ph, hphase, hle⟩ := hstep.phase
  by_cases hi : i = l.server
  · subst hi
    exact ⟨ph, by rw [hphase, Function.update_self], (Nat.le_of_add_right_le (hle old hold)).trans hrank⟩
  · exact ⟨old, by rw [hphase, Function.update_of_ne hi, hold], hrank⟩

/-- A socket stands at its daemon's path, and only behind `bind`. -/
structure Owned (path : S → Path) (s : State S) : Prop where
  own {p : Path} {i : S} : s.entry p = some (.socket i) → path i = p
  past {p : Path} {i : S} : s.entry p = some (.socket i) → Past s i

theorem Owned.step {l : Label S} (h : Owned path s) (hstep : Does path s l t) : Owned path t := by
  refine ⟨fun {p i} hentry => ?_, fun {p i} hentry => ?_⟩
  · rcases hstep.entry p with hsame | ⟨hpath, hnone | ⟨hbound, -, -⟩⟩
    · exact h.own (hsame ▸ hentry)
    · cases hnone.symm.trans hentry
    · cases hbound.symm.trans hentry
      exact hpath
  · rcases hstep.entry p with hsame | ⟨hpath, hnone | ⟨hbound, -, hlisten⟩⟩
    · exact (h.past (hsame ▸ hentry)).step hstep
    · cases hnone.symm.trans hentry
    · cases hbound.symm.trans hentry
      exact ⟨.listen, hlisten, le_rfl⟩

theorem owned_of_reachable (h : (system path files).Reachable s) : Owned path s := by
  apply System.Reachable.invariant _ _ h
  · intro s hs
    cases hs
    have hnot {p : Path} {i : S} (hentry : (files p).map Entry.leftover = some (.socket i)) : False := by
      obtain ⟨l, -, hl⟩ := Option.map_eq_some_iff.mp hentry
      cases hl
    exact ⟨fun hentry => (hnot hentry).elim, fun hentry => (hnot hentry).elim⟩
  · exact fun s t l hs hstep => hs.step (does_of_step hstep)

/-- It has no path any more. -/
structure Lost (s : State S) (i : S) : Prop where
  past : Past s i
  nowhere (p : Path) : s.entry p ≠ some (.socket i)

/-- **A path that is lost is not bound again.** -/
theorem Lost.step {l : Label S} (h : Lost s i) (hstep : Does path s l t) : Lost t i := by
  refine ⟨h.past.step hstep, fun p hentry => ?_⟩
  rcases hstep.entry p with hsame | ⟨-, hnone | ⟨hbound, hbind, -⟩⟩
  · exact h.nowhere p (hsame ▸ hentry)
  · cases hnone.symm.trans hentry
  · cases hbound.symm.trans hentry
    obtain ⟨ph, hph, hrank⟩ := h.past
    cases hbind.symm.trans hph
    exact absurd hrank (by decide)

theorem Lost.run {ls : List (Label S)} (h : Lost s i)
    (hrun : (system path files).run s ls = some t) : Lost t i := by
  induction ls generalizing s with
  | nil =>
    cases hrun
    exact h
  | cons l ls ih =>
    obtain ⟨u, hu, ht⟩ := Option.bind_eq_some_iff.mp hrun
    exact ih (h.step (does_of_step hu)) ht

/-! ## Clients -/

omit [DecidableEq S] in
theorem connect_iff : connect s p = .ok i ↔ p.val.length < sunPathSize
    ∧ s.entry p = some (.socket i) ∧ s.phase i = some .accept := by
  unfold connect
  constructor
  · intro h
    split at h
    next => cases h
    next hfits =>
      split at h
      next j hentry =>
        split at h
        next haccept =>
          cases h
          exact ⟨not_le.mp hfits, hentry, haccept⟩
        next => cases h
      all_goals cases h
  · intro ⟨hfits, hentry, haccept⟩
    rw [if_neg (not_le.mpr hfits), hentry]
    exact if_pos haccept

omit [DecidableEq S] in
theorem Lost.not_reached (h : Lost s i) (p : Path) : connect s p ≠ .ok i :=
  fun hconnect => h.nowhere p (connect_iff.mp hconnect).2.1

/-! ## Many at once -/

/-- No daemon is killed, and no call fails but for what stands at the path. -/
def Label.Calm : Label S → Prop
  | .start _ => True
  | .call _ => True
  | .fail _ _ => False
  | .kill _ => False

/-- It has not looked yet what stands at the path. -/
def looks : Option Phase → Bool
  | none => true
  | some .stat => true
  | _ => false

/-- It has seen or made the path empty, and has not tried to bind. -/
def claims : Option Phase → Bool
  | some .socket => true
  | some .notify => true
  | some .bind => true
  | _ => false

/-- **What holds while daemons come to a path**: a socket there is that of a daemon in its loop, or
about to be; where nothing is there any more, someone will bind; and where the file from before is
there, nobody has come past it. -/
structure Contended (path : S → Path) (p : Path) (s : State S) : Prop where
  live {i : S} : s.entry p = some (.socket i) → s.phase i = some .listen ∨ s.phase i = some .accept
  absent : s.entry p = none → (∃ i, path i = p ∧ claims (s.phase i) = true)
    ∨ ∀ i, path i = p → looks (s.phase i) = true
  file : s.entry p = some (.leftover .file) → ∀ i, path i = p →
    looks (s.phase i) = true ∨ s.phase i = some .unlink
  noDirectory : s.entry p ≠ some (.leftover .directory)
  noDangling : s.entry p ≠ some (.leftover .dangling)

/-- A daemon that goes on at the path, or elsewhere, and leaves the entry alone. -/
theorem Contended.goto (h : Contended path p s) {ph : Phase}
    (hlive : s.phase i = some .listen ∨ s.phase i = some .accept → ph = .listen ∨ ph = .accept)
    (habsent : path i = p → s.entry p = none → claims (some ph) = true
      ∨ claims (s.phase i) = false ∧ (looks (s.phase i) = true → looks (some ph) = true))
    (hfile : path i = p → s.entry p = some (.leftover .file) →
      looks (s.phase i) = true ∨ s.phase i = some .unlink → looks (some ph) = true ∨ ph = .unlink) :
    Contended path p (s.goto i ph) := by
  refine ⟨fun {j} hentry => ?_, fun hentry => ?_, fun hentry j hj => ?_, h.noDirectory, h.noDangling⟩
  · by_cases hji : j = i
    · subst hji
      rw [goto_self]
      exact (hlive (h.live hentry)).imp (congrArg some) (congrArg some)
    · rw [goto_of_ne hji]
      exact h.live hentry
  · by_cases hi : path i = p
    · rcases habsent hi hentry with hclaims | ⟨hold, hlooks⟩
      · exact .inl ⟨i, hi, by rw [goto_self, hclaims]⟩
      · rcases h.absent hentry with ⟨k, hk, hclaims⟩ | hall
        · have hne : k ≠ i := by
            rintro rfl
            exact Bool.noConfusion (hold.symm.trans hclaims)
          exact .inl ⟨k, hk, by rw [goto_of_ne hne, hclaims]⟩
        · refine .inr fun j hj => ?_
          by_cases hji : j = i
          · subst hji
            rw [goto_self]
            exact hlooks (hall j hj)
          · rw [goto_of_ne hji]
            exact hall j hj
    · have hne {j : S} (hj : path j = p) : j ≠ i := fun hji => hi (hji ▸ hj)
      rcases h.absent hentry with ⟨k, hk, hclaims⟩ | hall
      · exact .inl ⟨k, hk, by rw [goto_of_ne (hne hk), hclaims]⟩
      · refine .inr fun j hj => ?_
        rw [goto_of_ne (hne hj)]
        exact hall j hj
  · by_cases hji : j = i
    · subst hji
      rw [goto_self]
      exact (hfile hj hentry (h.file hentry j hj)).imp_right (congrArg some)
    · rw [goto_of_ne hji]
      exact h.file hentry j hj

omit [DecidableEq S] in
/-- Another path does not matter. -/
theorem Contended.setEntry {q : Path} (h : Contended path p s) (hq : p ≠ q)
    (entry : Option (Entry S)) : Contended path p (s.setEntry q entry) := by
  have hsame : (s.setEntry q entry).entry p = s.entry p := setEntry_of_ne hq ..
  exact ⟨fun {j} he => h.live (hsame ▸ he), fun he => h.absent (hsame ▸ he),
    fun he => h.file (hsame ▸ he), fun he => h.noDirectory (hsame ▸ he),
    fun he => h.noDangling (hsame ▸ he)⟩

omit [DecidableEq S] in
theorem contended_of_none (hentry : s.entry p = none) (hi : path i = p)
    (hclaims : claims (s.phase i) = true) : Contended path p s := by
  constructor
  · simp [hentry]
  · exact fun _ => .inl ⟨i, hi, hclaims⟩
  all_goals simp [hentry]

omit [DecidableEq S] in
theorem contended_of_socket (hentry : s.entry p = some (.socket i))
    (hphase : s.phase i = some .listen) : Contended path p s := by
  constructor
  · intro j hj
    cases hentry.symm.trans hj
    exact .inl hphase
  all_goals simp [hentry]

theorem Contended.step {l : Label S} (hfits : p.val.length < sunPathSize) (h : Contended path p s)
    (hcalm : l.Calm) (hstep : Does path s l t) : Contended path p t := by
  cases hstep with
  | start hphase => exact h.goto (by simp [hphase]) (by simp [hphase, claims, looks]) (by simp [looks])
  | absent hphase hentry =>
    refine h.goto (by simp [hphase]) (by simp [claims]) fun hi hfile => ?_
    subst hi
    rw [hfile] at hentry
    simp at hentry
  | present hphase hentry =>
    refine h.goto (by simp [hphase]) (fun hi hnone => ?_) (by simp)
    subst hi
    cases hentry.symm.trans hnone
  | refused hphase hentry =>
    refine h.goto (by simp [hphase]) (by simp [hphase, claims, looks]) fun hi hfile => ?_
    subst hi
    rw [hfile] at hentry
    simp at hentry
  | @removed i e hphase hentry hne =>
    by_cases hi : p = path i
    · subst hi
      exact contended_of_none (i := i) (setEntry_self ..) rfl (by simp [claims])
    · exact (h.setEntry hi none).goto (by simp [hphase]) (by simp [claims])
        fun hp => absurd hp.symm hi
  | made hphase => exact h.goto (by simp [hphase]) (by simp [claims]) (by simp [hphase, looks])
  | told hphase => exact h.goto (by simp [hphase]) (by simp [claims]) (by simp [hphase, looks])
  | long hphase hlong =>
    have hi : path _ ≠ p := fun hi => absurd hfits (not_lt.mpr (hi ▸ hlong))
    exact h.goto (by simp [hphase]) (fun hp => absurd hp hi) fun hp => absurd hp hi
  | @bound i hphase hentry =>
    by_cases hi : p = path i
    · subst hi
      exact contended_of_socket (setEntry_self ..) (goto_self ..)
    · exact (h.setEntry hi _).goto (by simp) (fun hp => absurd hp.symm hi)
        fun hp => absurd hp.symm hi
  | occupied hphase hentry =>
    refine h.goto (by simp [hphase]) (fun hi hnone => ?_) (by simp [hphase, looks])
    subst hi
    cases hentry.symm.trans hnone
  | listens hphase =>
    exact h.goto (by simp) (by simp [hphase, claims, looks]) (by simp [hphase, looks])
  | fails => exact hcalm.elim
  | killed => exact hcalm.elim

theorem contended_of_reach (hfits : p.val.length < sunPathSize)
    (hfile : ∀ l ∈ files p, l = Leftover.file)
    (h : (system path files).Reach (fun _ l => l.Calm) s) : Contended path p s := by
  apply System.Reach.invariant _ _ h
  · intro s hs
    cases hs
    have hentry {e : Entry S} (he : (files p).map Entry.leftover = some e) : e = .leftover .file := by
      obtain ⟨l, hl, rfl⟩ := Option.map_eq_some_iff.mp he
      rw [hfile l hl]
    refine ⟨fun {i} he => ?_, fun _ => .inr fun _ _ => rfl, fun _ _ _ => .inl rfl, fun he => ?_,
      fun he => ?_⟩
    · cases hentry he
    · cases hentry he
    · cases hentry he
  · exact fun s t l hs hcalm hstep => hs.step hfits hcalm (does_of_step hstep)

/-- It is in its loop or has ended. -/
def Phase.Settled (ph : Phase) : Prop := ph.rank = 0

/-- A call that is left can be made, and then there is one less. -/
theorem call_of_unsettled {ph : Phase} (h : s.phase i = some ph) (hleft : ¬ ph.Settled) :
    ∃ t ph', step path s (.call i) = some t ∧ t.phase i = some ph' ∧ ph'.rank < ph.rank := by
  have hcall : step path s (.call i) = call s (path i) i ph := by
    rw [step, h]
    rfl
  have hsome : ∃ t, call s (path i) i ph = some t := by
    cases ph with
    | accept => exact absurd rfl hleft
    | thrown what => exact absurd rfl hleft
    | killed => exact absurd rfl hleft
    | _ => exact ⟨_, rfl⟩
  obtain ⟨t, ht⟩ := hsome
  obtain ⟨ph', hph', hlower⟩ := (does_of_step (hcall.trans ht)).phase
  exact ⟨t, ph', hcall.trans ht, by rw [hph']; exact Function.update_self .., hlower ph h⟩

/-- **One of them is reached.** However many daemons are started at a path that fits and has at most a
file from before, in whatever order they make their calls: where none was killed, and no call failed
but for what stands at the path, each has a call to make until it is in its loop or has ended, and six
at most. When all that were started have come there, a client reaches just one of them, and the others
are never reached again, whatever happens then. The directory of the path is there. -/
theorem one_is_reached (hfits : p.val.length < sunPathSize)
    (hfile : ∀ l ∈ files p, l = Leftover.file)
    (h : (system path files).Reach (fun _ l => l.Calm) s) :
    (∀ i ph, s.phase i = some ph → ph.rank ≤ 6 ∧ (¬ ph.Settled →
      ∃ t ph', step path s (.call i) = some t ∧ t.phase i = some ph' ∧ ph'.rank < ph.rank))
    ∧ ((∃ i, path i = p ∧ s.phase i ≠ none) →
      (∀ i ph, path i = p → s.phase i = some ph → ph.Settled) →
      ∃ i, path i = p ∧ connect s p = .ok i
        ∧ ∀ j, j ≠ i → path j = p → s.phase j ≠ none →
          ∀ ls t, (system path files).run s ls = some t → ∀ q, connect t q ≠ .ok j) := by
  have hcontended := contended_of_reach hfits hfile h
  have howned := owned_of_reachable h.reachable
  refine ⟨fun i ph hph => ⟨ph.rank_le, call_of_unsettled hph⟩,
    fun ⟨k, hk, hstarted⟩ hsettled => ?_⟩
  obtain ⟨ph, hph⟩ := Option.ne_none_iff_exists'.mp hstarted
  -- the one that was started is not among those that have still to look or to unlink
  have hrank : ph.rank = 0 := hsettled k ph hk hph
  have hlooked : looks (s.phase k) = false := by
    rw [hph]
    cases ph with
    | stat => cases hrank
    | _ => rfl
  cases hentry : s.entry p with
  | none =>
    rcases hcontended.absent hentry with ⟨i, hi, hclaims⟩ | hall
    · cases hold : s.phase i with
      | none =>
        rw [hold] at hclaims
        cases hclaims
      | some old =>
        have hold0 : old.rank = 0 := hsettled i old hi hold
        rw [hold] at hclaims
        cases old with
        | socket => cases hold0
        | notify => cases hold0
        | bind => cases hold0
        | _ => cases hclaims
    · exact Bool.noConfusion (hlooked.symm.trans (hall k hk))
  | some e =>
    cases e with
    | leftover l =>
      cases l with
      | directory => exact absurd hentry hcontended.noDirectory
      | dangling => exact absurd hentry hcontended.noDangling
      | file =>
        rcases hcontended.file hentry k hk with hlooks | hunlink
        · exact Bool.noConfusion (hlooked.symm.trans hlooks)
        · cases hph.symm.trans hunlink
          cases hrank
    | socket i =>
      have hi := howned.own hentry
      have haccept : s.phase i = some .accept := by
        rcases hcontended.live hentry with hlisten | haccept
        · cases hsettled i .listen hi hlisten
        · exact haccept
      refine ⟨i, hi, connect_iff.mpr ⟨hfits, hentry, haccept⟩, fun j hj hpath hnone ls t hrun q => ?_⟩
      obtain ⟨old, hold⟩ := Option.ne_none_iff_exists'.mp hnone
      have hlost : Lost s j := by
        refine ⟨⟨old, hold, (hsettled j old hpath hold).le.trans (Nat.zero_le 1)⟩, fun q hq => ?_⟩
        have hq' : q = p := (howned.own hq).symm.trans hpath
        subst hq'
        cases hentry.symm.trans hq
        exact hj rfl
      exact (hlost.run hrun).not_reached q

/-- Two daemons with one path. -/
def oneDev : Bool → Path := fun _ => ⟨lit "/dev.sock", by decide⟩

/-- Both find the file from before, and the second one removes the socket of the first one. -/
def bothUnlink : List (Label Bool) :=
  [.start true, .start false, .call true, .call false, .call true, .call true, .call true,
    .call true, .call true, .call false, .call false, .call false, .call false, .call false]

/-- Where this leads to. -/
def afterBoth : State Bool :=
  ((system oneDev fun _ => some .file).run ⟨fun _ => some (.leftover .file), fun _ => none⟩
    bothUnlink).getD ⟨fun _ => none, fun _ => none⟩

theorem one_is_reached_second : afterBoth.phase true = some .accept
    ∧ connect afterBoth (oneDev true) = .ok false
    ∧ ∀ ls t, (system oneDev fun _ => some .file).run afterBoth ls = some t →
      ∀ q, connect t q ≠ .ok true := by
  have hcalm : ∀ l ∈ bothUnlink, l.Calm := by
    simp [bothUnlink, Label.Calm]
  have hreach : (system oneDev fun _ => some .file).Reach (fun _ l => l.Calm) afterBoth :=
    System.Reach.run (.init rfl) (fun l hl _ => hcalm l hl) rfl
  have hsettled (i : Bool) (ph : Phase) (hph : afterBoth.phase i = some ph) : ph.Settled := by
    cases i with
    | true =>
      cases hph
      rfl
    | false =>
      cases hph
      rfl
  have hfile : ∀ l ∈ some Leftover.file, l = .file := fun l hl => (Option.some.inj hl).symm
  obtain ⟨i, -, hi, hothers⟩ := (one_is_reached (p := oneDev true) (by decide) hfile hreach).2
    ⟨true, rfl, fun h => (nomatch h)⟩ fun i ph _ hph => hsettled i ph hph
  cases i with
  | true => cases hi
  | false => exact ⟨rfl, rfl, hothers true (by decide) rfl fun h => (nomatch h)⟩

/-! ## Taking over -/

theorem goto_goto (s : State S) (i : S) (ph ph' : Phase) : (s.goto i ph).goto i ph' = s.goto i ph' :=
  congrArg (State.mk s.entry) (Function.update_idem ..)

omit [DecidableEq S] in
theorem setEntry_setEntry (s : State S) (p : Path) (e e' : Option (Entry S)) :
    (s.setEntry p e).setEntry p e' = s.setEntry p e' :=
  congrArg (State.mk · s.phase) (Function.update_idem ..)

theorem step_goto (s : State S) (i : S) (ph : Phase) :
    step path (s.goto i ph) (.call i) = call (s.goto i ph) (path i) i ph := by
  rw [step, goto_self]
  rfl

variable (files) in
theorem run_cons {u : State S} {l : Label S} (h : step path s l = some u) (ls : List (Label S)) :
    (system path files).run s (l :: ls) = (system path files).run u ls := by
  show (step path s l).bind _ = _
  rw [h]
  rfl

variable (files) in
/-- From `UnixSocket::UnixSocket` into the loop, where nothing stands at the path. -/
theorem run_claim (hfits : (path i).val.length < sunPathSize) (h : s.entry (path i) = none) :
    (system path files).run (s.goto i .socket) (List.replicate 4 (.call i)) =
      some ((s.setEntry (path i) (some (.socket i))).goto i .accept) := by
  have hbind : bind (s.goto i .bind) (path i) i =
      (s.setEntry (path i) (some (.socket i))).goto i .listen := by
    rw [bind, if_neg (not_le.mpr hfits), goto_entry, h]
    exact goto_goto (s.setEntry (path i) (some (.socket i))) ..
  have hsocket : step path (s.goto i .socket) (.call i) = some (s.goto i .notify) := by
    rw [step_goto, call, goto_goto]
  have hnotify : step path (s.goto i .notify) (.call i) = some (s.goto i .bind) := by
    rw [step_goto, call, goto_goto]
  have hbound : step path (s.goto i .bind) (.call i) =
      some ((s.setEntry (path i) (some (.socket i))).goto i .listen) := by
    rw [step_goto, call, hbind]
  have hlisten (u : State S) : step path (u.goto i .listen) (.call i) = some (u.goto i .accept) := by
    rw [step_goto, call, goto_goto]
  rw [List.replicate_succ, run_cons files hsocket, List.replicate_succ, run_cons files hnotify,
    List.replicate_succ, run_cons files hbound, List.replicate_succ, run_cons files (hlisten _)]
  rfl

variable (files) in
/-- All of it. -/
theorem run_start (hfits : (path i).val.length < sunPathSize) (hnew : s.phase i = none)
    (hdirectory : s.entry (path i) ≠ some (.leftover .directory))
    (hdangling : s.entry (path i) ≠ some (.leftover .dangling)) :
    ∃ ls : List (Label S), (∀ l ∈ ls, l.server = i) ∧ (system path files).run s ls =
      some ((s.setEntry (path i) (some (.socket i))).goto i .accept) := by
  have hstart : step path s (.start i) = some (s.goto i .stat) := if_pos hnew
  have hmine (n : ℕ) (l : Label S) (hl : l ∈ .start i :: List.replicate n (.call i)) : l.server = i := by
    rcases List.mem_cons.mp hl with rfl | hl
    · rfl
    · rw [List.eq_of_mem_replicate hl]
      rfl
  cases hentry : s.entry (path i) with
  | none =>
    have hstat : step path (s.goto i .stat) (.call i) = some (s.goto i .socket) := by
      rw [step_goto, call, stat, goto_entry, hentry]
      exact congrArg some (goto_goto ..)
    refine ⟨.start i :: List.replicate 5 (.call i), hmine 5, ?_⟩
    rw [run_cons files hstart, List.replicate_succ, run_cons files hstat]
    exact run_claim files hfits hentry
  | some e =>
    have hstat : step path (s.goto i .stat) (.call i) = some (s.goto i .unlink) := by
      rw [step_goto, call, stat, goto_entry, hentry]
      split
      next h => cases h
      next h => exact absurd (hentry.trans h) hdangling
      next => exact congrArg some (goto_goto ..)
    have hunlink : step path (s.goto i .unlink) (.call i) =
        some ((s.setEntry (path i) none).goto i .socket) := by
      rw [step_goto, call, unlink, goto_entry, hentry]
      split
      next h => cases h
      next h => exact absurd (hentry.trans h) hdirectory
      next => exact congrArg some (goto_goto (s.setEntry (path i) none) ..)
    refine ⟨.start i :: List.replicate 6 (.call i), hmine 6, ?_⟩
    rw [run_cons files hstart, List.replicate_succ, run_cons files hstat, List.replicate_succ,
      run_cons files hunlink, run_claim files hfits (setEntry_self ..), setEntry_setEntry]

/-- **A daemon takes over its path.** Whatever happened before, failing calls of `socket` and `listen`
and daemons that were killed included, one that is started by itself, at a path that fits and has no
directory or broken link, comes to its loop and is reached there, where none of its own calls fails.
At other paths nothing changes, and the one that was reached before goes on in its loop and is not
reached any more, whatever happens then. The directory of the path is there. -/
theorem takes_over (h : (system path files).Reachable s) (hnew : s.phase i = none)
    (hfits : (path i).val.length < sunPathSize)
    (hdirectory : s.entry (path i) ≠ some (.leftover .directory))
    (hdangling : s.entry (path i) ≠ some (.leftover .dangling)) :
    ∃ ls t, (∀ l ∈ ls, Label.server l = i) ∧ (system path files).run s ls = some t
      ∧ connect t (path i) = .ok i
      ∧ (∀ p, p ≠ path i → connect t p = connect s p)
      ∧ ∀ j, connect s (path i) = .ok j → t.phase j = some .accept
        ∧ ∀ ls' u, (system path files).run t ls' = some u → ∀ p, connect u p ≠ .ok j := by
  obtain ⟨ls, hmine, hrun⟩ := run_start files hfits hnew hdirectory hdangling
  have howned := owned_of_reachable h
  refine ⟨ls, _, hmine, hrun, ?_, fun p hp => ?_, fun j hj => ?_⟩
  · exact connect_iff.mpr ⟨hfits, setEntry_self .., goto_self ..⟩
  · unfold connect
    rw [goto_entry, setEntry_of_ne hp]
    split
    · rfl
    · split
      next k hentry =>
        have hk : k ≠ i := by
          rintro rfl
          exact hp (howned.own hentry).symm
        rw [goto_of_ne hk, setEntry_phase]
      all_goals rfl
  · obtain ⟨-, hentry, haccept⟩ := connect_iff.mp hj
    have hne : j ≠ i := by
      rintro rfl
      cases hnew.symm.trans haccept
    have hkept : ((s.setEntry (path i) (some (.socket i))).goto i .accept).phase j = some .accept :=
      (goto_of_ne hne ..).trans haccept
    refine ⟨hkept, fun ls' u hrun' p => ?_⟩
    have hlost : Lost ((s.setEntry (path i) (some (.socket i))).goto i .accept) j := by
      refine ⟨⟨.accept, hkept, Nat.zero_le 1⟩, fun q hq => ?_⟩
      by_cases hpath : q = path i
      · subst hpath
        cases (setEntry_self ..).symm.trans hq
        exact hne rfl
      · rw [goto_entry, setEntry_of_ne hpath] at hq
        exact hpath ((howned.own hq).symm.trans (howned.own hentry))
    exact (hlost.run hrun').not_reached p

/-- The steps of the first daemon, up to its loop. -/
def alone : List (Label Bool) := .start true :: List.replicate 5 (.call true)

/-- Where they lead to. -/
def served : State Bool :=
  ((system oneDev fun _ => none).run ⟨fun _ => none, fun _ => none⟩ alone).getD
    ⟨fun _ => none, fun _ => none⟩

theorem takes_over_first : connect served (oneDev true) = .ok true ∧ ∃ ls t,
    (∀ l ∈ ls, Label.server l = false) ∧ (system oneDev fun _ => none).run served ls = some t
      ∧ connect t (oneDev true) = .ok false ∧ t.phase true = some .accept := by
  have halone : (system oneDev fun _ => none).run ⟨fun _ => none, fun _ => none⟩ alone = some served := rfl
  have hreach : (system oneDev fun _ => none).Reachable served := System.Reachable.run (.init rfl) halone
  have hfirst : connect served (oneDev true) = .ok true := rfl
  obtain ⟨ls, t, hmine, hrun, hreached, -, hold⟩ :=
    takes_over (i := false) hreach rfl (by decide) (fun h => (nomatch h)) fun h => (nomatch h)
  exact ⟨hfirst, ls, t, hmine, hrun, hreached, (hold true hfirst).1⟩

end Holchain.Holper.Server
