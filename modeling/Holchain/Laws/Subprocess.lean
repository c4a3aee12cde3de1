import Mathlib.Data.Prod.Lex
import Holchain.Holper.Subprocess

/-!
# Laws.Subprocess — what a child gets and what becomes of its output

`Step` lists the moves of the two processes. Every run ends (`halts`), and only where `finish` has
returned (`Inv.moves`), so the parent and its child never wait for each other. By then the child
has read the strings and the end of file. What it wrote is in the pipes, which nobody has read
from before: it is complete if and only if it fits into them (`finish_exact`).
-/

namespace Holchain.Holper.Subprocess

open Lib (Pipe)
open Lib.Pipe (Kept)

variable {prog : Program} {cap : Capacity} {strings : List Bytes}

/-! ## The moves -/

/-- What one step does. -/
inductive Step (s : State prog cap) : State prog cap → Prop
  | call {data : Bytes} {rest : List Bytes} : s.parent = .writing [] (data :: rest) →
      Step s { s with parent := .writing data rest }
  | close : s.parent = .writing [] [] → Step s { s with parent := .waiting }
  | put {left : Bytes} {rest : List Bytes} {n : ℕ} {stdin : Pipe UInt8 cap.stdin} :
      s.parent = .writing left rest → 0 < n → n ≤ left.length →
      s.stdin.put (left.take n) = some stdin →
      Step s { s with stdin, parent := .writing (left.drop n) rest }
  | reap : s.parent = .waiting → s.exited = true →
      Step s { s with parent := .reading .stdout fun _ => [] }
  | outRead {got : Stream → Bytes} : s.parent = .reading .stdout got →
      (s.out .stdout).content = [] → Step s { s with parent := .reading .stderr got }
  | errRead {got : Stream → Bytes} : s.parent = .reading .stderr got →
      (s.out .stderr).content = [] → Step s { s with parent := .returned got }
  | fetch {stream : Stream} {got : Stream → Bytes} {n : ℕ} : s.parent = .reading stream got →
      0 < n → n ≤ (s.out stream).content.length →
      Step s { s with
        out := Function.update s.out stream ((s.out stream).drop n)
        parent := .reading stream
          (Function.update got stream (got stream ++ (s.out stream).content.take n)) }
  | childEof {k : Bytes → prog.State} : s.exited = false → prog.act s.child = .read k →
      s.stdin.content = [] → s.parent.closed = true → Step s { s with child := k [] }
  | childRead {k : Bytes → prog.State} {n : ℕ} : s.exited = false → prog.act s.child = .read k →
      0 < n → n ≤ s.stdin.content.length →
      Step s { s with
        stdin := s.stdin.drop n
        child := k (s.stdin.content.take n)
        received := s.received ++ s.stdin.content.take n }
  | childWrite {stream : Stream} {data : Bytes} {k : ℕ → prog.State} {n : ℕ}
      {pipe : Pipe UInt8 (cap.out stream)} : s.exited = false →
      prog.act s.child = .write stream data k → (s.out stream).offer data n = some pipe →
      Step s { s with
        out := Function.update s.out stream pipe
        child := k n
        tried := Function.update s.tried stream (s.tried stream ++ data) }
  | childExit : s.exited = false → prog.act s.child = .exit → Step s { s with exited := true }

theorem Step.of_parent {n : ℕ} {s t : State prog cap} (h : parentStep n s = some t) :
    Step s t := by
  unfold parentStep at h
  split at h
  · rename_i hp
    cases h
    exact .call hp
  · rename_i hp
    cases h
    exact .close hp
  · rename_i hp
    split at h
    · rename_i hn
      obtain ⟨stdin, hput, rfl⟩ := Option.map_eq_some_iff.mp h
      exact .put hp hn.1 hn.2 hput
    · cases h
  · rename_i hp
    split at h
    · rename_i hexited
      cases h
      exact .reap hp hexited
    · cases h
  · rename_i stream got hp
    split at h
    · rename_i hempty
      cases stream with
      | stdout =>
        cases h
        exact .outRead hp hempty
      | stderr =>
        cases h
        exact .errRead hp hempty
    · rename_i b more hcontent
      split at h
      · rename_i hn
        cases h
        rw [← hcontent] at hn ⊢
        exact .fetch hp hn.1 hn.2.2
      · cases h
  · cases h

theorem Step.of_child {n : ℕ} {s t : State prog cap} (h : childStep n s = some t) :
    Step s t := by
  unfold childStep at h
  split at h
  · cases h
  · rename_i hexited
    have hexited := Bool.eq_false_iff.mpr hexited
    split at h
    · rename_i k hact
      split at h
      · rename_i hempty
        split at h
        · rename_i hclosed
          cases h
          exact .childEof hexited hact hempty hclosed
        · cases h
      · rename_i b more hcontent
        split at h
        · rename_i hn
          cases h
          rw [← hcontent] at hn ⊢
          exact .childRead hexited hact hn.1 hn.2
        · cases h
    · rename_i stream data k hact
      obtain ⟨pipe, hoffer, rfl⟩ := Option.map_eq_some_iff.mp h
      exact .childWrite hexited hact hoffer
    · rename_i hact
      cases h
      exact .childExit hexited hact

theorem Step.of_step {s t : State prog cap} {l : Label}
    (h : (system prog cap strings).step s l = some t) : Step s t := by
  cases l with
  | parent n => exact Step.of_parent h
  | child n => exact Step.of_child h

/-! ## The invariant -/

/-- What the parent has still to put into stdin. -/
def Parent.unsent : Parent → Bytes
  | .writing left rest => left ++ rest.flatten
  | _ => []

/-- What the parent has read of a stream. -/
def Parent.got : Parent → Stream → Bytes
  | .reading _ got => got
  | .returned got => got
  | _ => fun _ => []

/-- `waitpid` has returned. -/
def Parent.reaped : Parent → Bool
  | .reading _ _ => true
  | .returned _ => true
  | _ => false

/-- The parent has read the stream to its end. -/
def Parent.drained : Parent → Stream → Bool
  | .reading .stderr _, .stdout => true
  | .returned _, _ => true
  | _, _ => false

theorem Parent.got_of_not_reaped {parent : Parent} (h : parent.reaped = false) (stream : Stream) :
    parent.got stream = [] := by
  cases parent with
  | writing | waiting => rfl
  | reading | returned => cases h

theorem Parent.reaped_of_drained {parent : Parent} {stream : Stream}
    (h : parent.drained stream = true) : parent.reaped = true := by
  cases parent with
  | writing | waiting => cases stream <;> cases h
  | reading | returned => rfl

/-- What holds in every state of a run. -/
structure Inv (strings : List Bytes) (s : State prog cap) : Prop where
  input : s.received ++ s.stdin.content ++ s.parent.unsent = strings.flatten
  ended : prog.ended s.child = true → s.stdin.content = [] ∧ s.parent.closed = true
  exited : s.exited = true → prog.ended s.child = true
  reaped : s.parent.reaped = true → s.exited = true
  kept : ∀ stream, Kept (cap.out stream) (s.tried stream)
    (s.parent.got stream ++ (s.out stream).content)
  drained : ∀ stream, s.parent.drained stream = true → (s.out stream).content = []

theorem inv_start : Inv strings
    ({ parent := .writing [] strings, child := prog.start } : State prog cap) where
  input := rfl
  ended := by
    intro h
    rw [prog.ended_start] at h
    cases h
  exited := nofun
  reaped := nofun
  kept := fun _ => Pipe.kept_nil
  drained := nofun

section Streams

variable {out : (stream : Stream) → Pipe UInt8 (cap.out stream)} {got tried : Stream → Bytes}

/-- What the parent reads of a stream stays behind what it has read. -/
theorem kept_fetch (h : ∀ stream, Kept (cap.out stream) (tried stream)
    (got stream ++ (out stream).content)) (stream : Stream) (n : ℕ) (stream' : Stream) :
    Kept (cap.out stream') (tried stream')
      (Function.update got stream (got stream ++ (out stream).content.take n) stream'
        ++ (Function.update out stream ((out stream).drop n) stream').content) := by
  by_cases heq : stream' = stream
  · subst heq
    rw [Function.update_self, Function.update_self, Pipe.content_drop, List.append_assoc,
      List.take_append_drop]
    exact h stream'
  · rw [Function.update_of_ne heq, Function.update_of_ne heq]
    exact h stream'

/-- What the child writes is kept as far as there is room. -/
theorem kept_write (h : ∀ stream, Kept (cap.out stream) (tried stream) (out stream).content)
    {stream : Stream} {data : Bytes} {n : ℕ} {pipe : Pipe UInt8 (cap.out stream)}
    (hoffer : (out stream).offer data n = some pipe) (stream' : Stream) :
    Kept (cap.out stream') (Function.update tried stream (tried stream ++ data) stream')
      (Function.update out stream pipe stream').content := by
  by_cases heq : stream' = stream
  · subst heq
    rw [Function.update_self, Function.update_self]
    exact (h stream').offer hoffer
  · rw [Function.update_of_ne heq, Function.update_of_ne heq]
    exact h stream'

end Streams

/-- What is drained is stdout, and what is read then is stderr. -/
theorem Parent.not_drained {stream stream' : Stream} {got : Stream → Bytes}
    (h : (Parent.reading stream got).drained stream' = true) : stream' = .stdout ∧ stream = .stderr := by
  cases stream with
  | stdout => cases stream' <;> cases h
  | stderr =>
    cases stream' with
    | stdout => exact ⟨rfl, rfl⟩
    | stderr => cases h

theorem take_ne_nil {bytes : Bytes} {n : ℕ} (hpos : 0 < n) (hn : n ≤ bytes.length) :
    bytes.take n ≠ [] := by
  intro hnil
  have hlength := congrArg List.length hnil
  rw [List.length_take_of_le hn, List.length_nil] at hlength
  exact hpos.ne' hlength

theorem Inv.step {s t : State prog cap} (h : Inv strings s) (hstep : Step s t) :
    Inv strings t := by
  obtain ⟨parent, child, exited, stdin, out, received, tried⟩ := s
  obtain ⟨hinput, hended, hexited, hreaped, hkept, hdrained⟩ := h
  dsimp only at hinput hended hexited hreaped hkept hdrained
  cases hstep with
  | call hp =>
    dsimp only at hp
    subst hp
    exact ⟨hinput, hended, hexited, nofun, hkept, nofun⟩
  | close hp =>
    dsimp only at hp
    subst hp
    exact ⟨hinput, fun h => ⟨(hended h).1, rfl⟩, hexited, nofun, hkept, nofun⟩
  | @put left rest n _ hp hpos hn hput =>
    dsimp only at hp hput
    subst hp
    refine ⟨?_, ?_, hexited, nofun, hkept, nofun⟩
    · rw [← hinput]
      show _ ++ _ ++ (left.drop n ++ rest.flatten) = _ ++ _ ++ (left ++ rest.flatten)
      rw [Pipe.put_eq_some hput]
      simp only [List.append_assoc, List.take_append_drop, ← List.append_assoc (left.take n)]
    · intro hend
      exact absurd (hended hend).2 nofun
  | reap hp hex =>
    dsimp only at hp hex
    subst hp
    exact ⟨hinput, hended, hexited, fun _ => hex, hkept, fun stream h => by cases stream <;> cases h⟩
  | outRead hp hempty =>
    dsimp only at hp hempty
    subst hp
    refine ⟨hinput, hended, hexited, hreaped, hkept, fun stream h => ?_⟩
    cases stream with
    | stdout => exact hempty
    | stderr => cases h
  | errRead hp hempty =>
    dsimp only at hp hempty
    subst hp
    refine ⟨hinput, hended, hexited, hreaped, hkept, fun stream h => ?_⟩
    cases stream with
    | stdout => exact hdrained .stdout rfl
    | stderr => exact hempty
  | @fetch stream got n hp hpos hn =>
    dsimp only at hp hn
    subst hp
    refine ⟨hinput, hended, hexited, hreaped, fun stream' => ?_, fun stream' h => ?_⟩
    · exact kept_fetch hkept stream n stream'
    · obtain ⟨rfl, rfl⟩ := Parent.not_drained h
      exact hdrained .stdout rfl
  | childEof hrun hact hempty hclosed =>
    dsimp only at hrun hact hempty hclosed
    subst hrun
    exact ⟨hinput, fun _ => ⟨hempty, hclosed⟩, nofun, hreaped, hkept, hdrained⟩
  | @childRead k n hrun hact hpos hn =>
    dsimp only at hrun hact hn
    subst hrun
    have hbytes : stdin.content.take n ≠ [] := take_ne_nil hpos hn
    refine ⟨?_, fun hend => ?_, nofun, hreaped, hkept, hdrained⟩
    · show received ++ stdin.content.take n ++ stdin.content.drop n ++ parent.unsent = _
      rw [List.append_assoc received, List.take_append_drop]
      exact hinput
    · have hend : prog.ended (k (stdin.content.take n)) = true := hend
      rw [prog.ended_read _ hact hbytes] at hend
      rw [(hended hend).1] at hbytes
      exact absurd List.take_nil hbytes
  | @childWrite stream data k n pipe hrun hact hoffer =>
    dsimp only at hrun hact hoffer
    subst hrun
    have hreaped : parent.reaped = false := Bool.eq_false_iff.mpr fun h => nomatch hreaped h
    refine ⟨hinput, fun hend => hended ?_, nofun, fun h => ?_, fun stream' => ?_, fun stream' h => ?_⟩
    · exact (prog.ended_write n hact).symm.trans hend
    · exact absurd h (Bool.eq_false_iff.mp hreaped)
    · have hgot (stream : Stream) : parent.got stream = [] := parent.got_of_not_reaped hreaped stream
      simp only [hgot, List.nil_append] at hkept ⊢
      exact kept_write hkept hoffer stream'
    · exact absurd (parent.reaped_of_drained h) (Bool.eq_false_iff.mp hreaped)
  | childExit hrun hact =>
    dsimp only at hrun hact
    subst hrun
    exact ⟨hinput, hended, fun _ => prog.ended_exit hact, fun _ => rfl, hkept, hdrained⟩

theorem Inv.reachable {s : State prog cap} (h : (system prog cap strings).Reachable s) :
    Inv strings s := by
  refine h.invariant (fun s hs => ?_) (fun s t l hi hstep => hi.step (Step.of_step hstep))
  rw [hs]
  exact inv_start

/-! ## Every run goes on until `finish` has returned -/

/-- A child that is not at an empty open stdin can go on. -/
theorem childStep_isSome {s : State prog cap} (hrun : s.exited = false)
    (hin : s.stdin.content ≠ [] ∨ s.parent.closed = true) : ∃ n t, childStep n s = some t := by
  unfold childStep
  simp only [hrun, Bool.false_eq_true, if_false]
  cases prog.act s.child with
  | read k =>
    cases hcontent : s.stdin.content with
    | nil =>
      have hclosed := hin.resolve_left (not_not.mpr hcontent)
      exact ⟨0, _, if_pos hclosed⟩
    | cons b more => exact ⟨1, _, if_pos ⟨Nat.one_pos, Nat.succ_le_succ (Nat.zero_le _)⟩⟩
  | write stream data k =>
    obtain ⟨n, pipe, hoffer⟩ := (s.out stream).offer_isSome data
    exact ⟨n, _, congrArg (Option.map _) hoffer⟩
  | exit => exact ⟨0, _, rfl⟩

/-- **One of the two can go on**, as long as `finish` has not returned. -/
theorem Inv.moves {s : State prog cap} (h : Inv strings s)
    (hp : ∀ got, s.parent ≠ .returned got) : ∃ l t, (system prog cap strings).step s l = some t := by
  have childMoves (hrun : s.exited = false)
      (hin : s.stdin.content ≠ [] ∨ s.parent.closed = true) :
      ∃ l t, (system prog cap strings).step s l = some t := by
    obtain ⟨n, t, ht⟩ := childStep_isSome hrun hin
    exact ⟨.child n, t, ht⟩
  cases hparent : s.parent with
  | writing left rest =>
    cases left with
    | nil =>
      cases rest with
      | nil => exact ⟨.parent 0, { s with parent := .waiting }, by simp only [system, parentStep, hparent]⟩
      | cons data rest =>
        exact ⟨.parent 0, { s with parent := .writing data rest },
          by simp only [system, parentStep, hparent]⟩
    | cons b left =>
      by_cases hfull : s.stdin.content = []
      · have hroom : ((b :: left).take 1).length ≤ s.stdin.room := by
          unfold Pipe.room
          rw [hfull]
          exact cap.stdin_pos
        obtain ⟨stdin, hput⟩ := Pipe.put_isSome hroom
        refine ⟨.parent 1, { s with stdin, parent := .writing ((b :: left).drop 1) rest }, ?_⟩
        simp only [system, parentStep, hparent, hput, Option.map_some]
        exact if_pos ⟨Nat.one_pos, Nat.succ_le_succ (Nat.zero_le _)⟩
      · -- the child has not read the end of file, so it has not exited
        have hrun : s.exited = false := by
          apply Bool.eq_false_iff.mpr
          intro hex
          have hclosed := (h.ended (h.exited hex)).2
          rw [hparent] at hclosed
          cases hclosed
        exact childMoves hrun (.inl hfull)
  | waiting =>
    cases hrun : s.exited with
    | true =>
      refine ⟨.parent 0, { s with parent := .reading .stdout fun _ => [] }, ?_⟩
      simp only [system, parentStep, hparent, hrun, if_true]
    | false => exact childMoves hrun (.inr (by rw [hparent]; rfl))
  | reading stream got =>
    cases hcontent : (s.out stream).content with
    | nil =>
      refine ⟨.parent 0, ?_⟩
      simp only [system, parentStep, hparent, hcontent]
      cases stream with
      | stdout => exact ⟨_, rfl⟩
      | stderr => exact ⟨_, rfl⟩
    | cons b more =>
      refine ⟨.parent 1, ?_⟩
      simp only [system, parentStep, hparent, hcontent]
      exact ⟨_, if_pos ⟨Nat.one_pos, by decide, Nat.succ_le_succ (Nat.zero_le _)⟩⟩
  | returned got => exact absurd hparent (hp got)

/-! ## Every run ends -/

/-- How far the parent is from having returned. -/
def Parent.phase : Parent → ℕ
  | .writing _ rest => rest.length + 4
  | .waiting => 3
  | .reading .stdout _ => 2
  | .reading .stderr _ => 1
  | .returned _ => 0

/-- What is left to do for the input and the calls: a byte is put into stdin and read from it. -/
def State.work (s : State prog cap) : ℕ :=
  2 * s.parent.unsent.length + s.stdin.content.length + s.parent.phase + if s.exited then 0 else 1

/-- What is in the output pipes. -/
def State.unread (s : State prog cap) : ℕ :=
  (s.out .stdout).content.length + (s.out .stderr).content.length

/-- The order in which a step goes down. -/
def Below (t s : State prog cap) : Prop :=
  Prod.Lex (· < ·) (Prod.Lex (Act.Quiet prog.act) (· < ·)) (t.work, t.child, t.unread)
    (s.work, s.child, s.unread)

theorem below_wellFounded : WellFounded (Below : State prog cap → State prog cap → Prop) :=
  InvImage.wf (fun s : State prog cap => (s.work, s.child, s.unread))
    (WellFounded.prod_lex Nat.lt_wfRel.wf (WellFounded.prod_lex prog.halts Nat.lt_wfRel.wf))

theorem below_of_work {s t : State prog cap} (h : t.work < s.work) : Below t s :=
  .left _ _ h

theorem below_of_child {s t : State prog cap} (hwork : t.work = s.work)
    (h : Act.Quiet prog.act t.child s.child) : Below t s := by
  unfold Below
  rw [hwork]
  exact .right _ (.left _ _ h)

theorem below_of_unread {s t : State prog cap} (hwork : t.work = s.work)
    (hchild : t.child = s.child) (h : t.unread < s.unread) : Below t s := by
  unfold Below
  rw [hwork, hchild]
  exact .right _ (.right _ h)

theorem Step.below {s t : State prog cap} (h : Step s t) : Below t s := by
  obtain ⟨parent, child, exited, stdin, out, received, tried⟩ := s
  cases h with
  | call hp =>
    dsimp only at hp
    subst hp
    apply below_of_work
    simp only [State.work, Parent.unsent, Parent.phase, List.flatten_cons, List.length_append,
      List.length_cons, List.length_nil]
    omega
  | close hp =>
    dsimp only at hp
    subst hp
    exact below_of_work (by simp [State.work, Parent.unsent, Parent.phase])
  | put hp hpos hn hput =>
    dsimp only at hp hput
    subst hp
    apply below_of_work
    simp only [State.work, Parent.unsent, Parent.phase, Pipe.put_eq_some hput, List.length_append,
      List.length_take, List.length_drop]
    omega
  | reap hp hex =>
    dsimp only at hp
    subst hp
    exact below_of_work (by simp [State.work, Parent.unsent, Parent.phase])
  | outRead hp _ =>
    dsimp only at hp
    subst hp
    exact below_of_work (by simp [State.work, Parent.unsent, Parent.phase])
  | errRead hp _ =>
    dsimp only at hp
    subst hp
    exact below_of_work (by simp [State.work, Parent.unsent, Parent.phase])
  | @fetch stream got n hp hpos hn =>
    dsimp only at hp hn
    subst hp
    refine below_of_unread ?_ rfl ?_
    · cases stream <;> rfl
    · cases stream <;>
        simp only [State.unread, Function.update_self, Function.update_of_ne, ne_eq, reduceCtorEq,
          not_false_eq_true, Pipe.content_drop, List.length_drop] <;> omega
  | childEof hrun hact _ _ => exact below_of_child rfl (.read hact)
  | childRead hrun hact hpos hn =>
    dsimp only at hn
    apply below_of_work
    simp only [State.work, Pipe.content_drop, List.length_drop]
    omega
  | childWrite hrun hact _ => exact below_of_child rfl (.write _ hact)
  | childExit hrun hact =>
    dsimp only at hrun
    subst hrun
    exact below_of_work (by simp [State.work])

/-- **No run goes on for ever.** -/
theorem halts (strings : List Bytes) : WellFounded
    fun t s : State prog cap => ∃ l, (system prog cap strings).step s l = some t :=
  Subrelation.wf (fun h => (Step.of_step h.choose_spec).below) below_wellFounded

/-- From every state of a run, `finish` can still return. -/
theorem returns {s : State prog cap} (h : (system prog cap strings).Reachable s) :
    ∃ t got, (system prog cap strings).Reachable t ∧ t.parent = .returned got := by
  induction s using (halts strings).induction with
  | h s ih =>
    by_cases hp : ∃ got, s.parent = .returned got
    · obtain ⟨got, hp⟩ := hp
      exact ⟨s, got, h, hp⟩
    · obtain ⟨l, t, ht⟩ := (Inv.reachable h).moves fun got heq => hp ⟨got, heq⟩
      exact ih t ⟨l, ht⟩ (.step h trivial ht)

/-! ## What arrives -/

theorem Parent.unsent_of_closed {parent : Parent} (h : parent.closed = true) :
    parent.unsent = [] := by
  cases parent with
  | writing => cases h
  | waiting | reading | returned => rfl

/-- The child has read a part of the strings, and all of them when it has exited. -/
theorem Inv.received {s : State prog cap} (h : Inv strings s) :
    s.received <+: strings.flatten
      ∧ (s.exited = true → s.received = strings.flatten ∧ prog.ended s.child = true) := by
  refine ⟨⟨s.stdin.content ++ s.parent.unsent, by rw [← List.append_assoc]; exact h.input⟩, ?_⟩
  intro hexited
  have hended := h.exited hexited
  obtain ⟨hempty, hclosed⟩ := h.ended hended
  have hinput := h.input
  rw [hempty, Parent.unsent_of_closed hclosed, List.append_nil, List.append_nil] at hinput
  exact ⟨hinput, hended⟩

/-- What `finish` returns is what the pipes took. -/
theorem Inv.kept_returned {s : State prog cap} {got : Stream → Bytes} (h : Inv strings s)
    (hp : s.parent = .returned got) (stream : Stream) :
    Kept (cap.out stream) (s.tried stream) (got stream) := by
  have hkept := h.kept stream
  have hdrained := h.drained stream
  rw [hp] at hkept hdrained
  rw [hdrained rfl, List.append_nil] at hkept
  exact hkept

/-- **When the output is complete.** Every run of the two processes ends, and in none of its states
do both of them wait. The child reads the strings and then the end of file. What `finish` returns
is all that the child tried to write, if and only if that fits into the pipes. -/
theorem finish_exact (prog : Program) (cap : Capacity) (strings : List Bytes) :
    WellFounded (fun t s : State prog cap => ∃ l, (system prog cap strings).step s l = some t)
    ∧ ∀ s, (system prog cap strings).Reachable s →
      ((∀ got, s.parent ≠ .returned got) → ∃ l t, (system prog cap strings).step s l = some t)
      ∧ s.received <+: strings.flatten
      ∧ (s.exited = true → s.received = strings.flatten ∧ prog.ended s.child = true)
      ∧ ∀ got, s.parent = .returned got → s.exited = true
        ∧ ((∀ stream, got stream = s.tried stream)
          ↔ ∀ stream, (s.tried stream).length ≤ cap.out stream) := by
  refine ⟨halts strings, fun s hs => ?_⟩
  have h := Inv.reachable hs
  refine ⟨h.moves, h.received.1, h.received.2, fun got hp => ⟨?_, ?_⟩⟩
  · exact h.reaped (by rw [hp]; rfl)
  · exact forall_congr' fun stream => (h.kept_returned hp stream).eq_iff

/-! ## A child that writes more than a pipe holds -/

/-- Where it is. -/
inductive Flood where
  | reading
  | writing
  | done
  deriving DecidableEq

/-- How far it is from its end. -/
def Flood.rank : Flood → ℕ
  | .reading => 2
  | .writing => 1
  | .done => 0

/-- What it writes. -/
def flooded : Bytes := List.replicate 65537 120

/-- It reads its stdin, writes 65537 bytes to stdout and exits. -/
def flood : Program where
  State := Flood
  start := .reading
  act
    | .reading => .read fun b => if b = [] then .writing else .reading
    | .writing => .write .stdout flooded fun _ => .done
    | .done => .exit
  ended
    | .reading => false
    | _ => true
  ended_start := rfl
  ended_read := by
    intro s k b hact hb
    cases s <;> cases hact
    show (match if b = [] then Flood.writing else Flood.reading with
      | .reading => false
      | _ => true) = false
    rw [if_neg hb]
  ended_eof := by
    intro s k hact
    cases s <;> cases hact
    rfl
  ended_write := by
    intro s stream data k n hact
    cases s <;> cases hact
    rfl
  ended_exit := by
    intro s hact
    cases s <;> cases hact
    rfl
  halts := by
    refine Subrelation.wf (fun {t s} hquiet => ?_) (InvImage.wf Flood.rank Nat.lt_wfRel.wf)
    show t.rank < s.rank
    cases hquiet with
    | read hact =>
      cases s <;> cases hact
      exact Nat.lt_succ_self 1
    | write n hact =>
      cases s <;> cases hact
      exact Nat.lt_succ_self 0

/-- The usual pipes. -/
def usual : Capacity where
  stdin := 65536
  out := fun _ => 65536
  stdin_pos := by decide

/-- Once it has written, it has tried to write all of it. -/
def Flooded (s : State flood usual) : Prop :=
  (s.exited = true → s.child = Flood.done) ∧ (s.child = Flood.done → s.tried .stdout = flooded)
    ∧ (s.child ≠ Flood.done → s.tried .stdout = [])

theorem flood_read {c : Flood} {k : Bytes → Flood} (h : flood.act c = .read k) :
    c = .reading ∧ k = fun b => if b = [] then Flood.writing else .reading := by
  cases c <;> cases h
  exact ⟨rfl, rfl⟩

theorem flood_write {c : Flood} {stream : Stream} {data : Bytes} {k : ℕ → Flood}
    (h : flood.act c = .write stream data k) :
    c = .writing ∧ stream = .stdout ∧ data = flooded ∧ k = fun _ => .done := by
  cases c <;> cases h
  exact ⟨rfl, rfl, rfl, rfl⟩

theorem flood_exit {c : Flood} (h : flood.act c = .exit) : c = .done := by
  cases c <;> cases h
  rfl

theorem Flooded.step {s t : State flood usual} (h : Flooded s) (hstep : Step s t) : Flooded t := by
  obtain ⟨hexited, hdone, hnot⟩ := h
  cases hstep with
  | call | close | put | reap | outRead | errRead | fetch => exact ⟨hexited, hdone, hnot⟩
  | childEof hrun hact _ _ =>
    obtain ⟨hchild, rfl⟩ := flood_read hact
    refine ⟨fun hex => ?_, nofun, fun _ => hnot (by rw [hchild]; nofun)⟩
    exact absurd hex (Bool.eq_false_iff.mp hrun)
  | childRead hrun hact _ _ =>
    obtain ⟨hchild, rfl⟩ := flood_read hact
    refine ⟨fun hex => ?_, fun hdone => ?_, fun _ => hnot (by rw [hchild]; nofun)⟩
    · exact absurd hex (Bool.eq_false_iff.mp hrun)
    · dsimp only at hdone
      split at hdone <;> cases hdone
  | childWrite hrun hact _ =>
    obtain ⟨hchild, rfl, rfl, rfl⟩ := flood_write hact
    refine ⟨fun _ => rfl, fun _ => ?_, fun h => absurd rfl h⟩
    dsimp only
    rw [Function.update_self, hnot (by rw [hchild]; nofun), List.nil_append]
  | childExit hrun hact => exact ⟨fun _ => flood_exit hact, hdone, hnot⟩

theorem flooded_reachable {s : State flood usual} (h : (system flood usual []).Reachable s) :
    Flooded s := by
  refine h.invariant (fun s hs => ?_) (fun s t l hi hstep => hi.step (Step.of_step hstep))
  rw [hs]
  exact ⟨nofun, nofun, fun _ => rfl⟩

/-- The last byte is lost. -/
theorem flood_truncated : ∃ s got, (system flood usual []).Reachable s
    ∧ s.parent = .returned got ∧ got .stdout ≠ s.tried .stdout := by
  obtain ⟨s, got, hs, hp⟩ := returns (.init rfl : (system flood usual []).Reachable _)
  have h := Inv.reachable hs
  have hflooded := flooded_reachable hs
  have hexited := h.reaped (by rw [hp]; rfl)
  refine ⟨s, got, hs, hp, fun heq => ?_⟩
  have hlen := (h.kept_returned hp .stdout).bounded
  rw [heq, hflooded.2.1 (hflooded.1 hexited), flooded, List.length_replicate] at hlen
  exact absurd hlen (by decide)

end Holchain.Holper.Subprocess
