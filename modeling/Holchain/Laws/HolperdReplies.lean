import Holchain.Laws.Holperd

/-!
# Laws.HolperdReplies — one reply for every command

A client that stays connected gets one reply, from whichever of the six places, unless an error
leaves the handler without one: `len` on a value that has none, before the `try`, or a text that
cannot be logged, in an `except` clause (`Answerable`).
-/

namespace Holchain.Python

open Lib (Str Json text)

variable {F : Type} {env : Env F} {s t : State F} {c : Conn}

/-- A command ends so that no `except` clause fails: what it has to log of an error can be
logged. -/
def Outcome.answerable : Outcome F → Bool
  | .returned value _ =>
    match value.str with
    | .error b => b
    | .ok t =>
      match value.json with
      | .error b => b || !loggable t
      | .ok _ => true
  | .exited => true
  | .userError msg => loggable msg
  | .raised b => b

/-- **What is answered**: a command that is not JSON, one that has a length, and a list of arguments
only if what it comes to can be logged. -/
def Answerable (env : Env F) (command : List UInt8) (behaviour : Behaviour F) : Prop :=
  match env.loads command with
  | none => True
  | some command =>
    match isInvalid command with
    | none => False
    | some true => True
    | some false => env.route (items command) = .other → behaviour.outcome.answerable = true

/-- One reply has been sent, and the connection is closed, or is when the reply has gone out. -/
def Answers (env : Env F) (s : State F) (c : Conn) : Prop :=
  (∃ msg code, s.replies c = [reply env msg code])
    ∧ (s.closed c = true ∨ ∃ t, step env s (.delivered c) = some t ∧ t.closed c = true
      ∧ t.replies c = s.replies c)

/-! ## Sending -/

/-- In a `_send_and_close`. -/
def Phase.sends : Phase → Bool
  | .rejecting | .answering _ _ _ | .excusing _ _ => true
  | _ => false

/-- A step of another part of the program, for connections and what they have sent. -/
structure Silent (s t : State F) : Prop where
  replies : t.replies = s.replies
  closed : t.closed = s.closed
  input : t.input = s.input

/-- One reply is sent. -/
structure Sent (env : Env F) (c : Conn) (s t : State F) : Prop where
  reply : ∃ msg code, t.replies = Function.update s.replies c (s.replies c ++ [reply env msg code])
  closed : t.closed = s.closed
  input : t.input = s.input
  sends : (t.phase c).sends = true

theorem sent_send (msg : Json F) (code : ℤ) {awaiting : Phase} (h : awaiting.sends = true) :
    Sent env c s (sendAndClose env c msg code awaiting s) := by
  refine ⟨⟨msg, code, rfl⟩, rfl, rfl, ?_⟩
  show (Function.update s.phase c awaiting c).sends = true
  rw [Function.update_self, h]

/-- What leaves replies alone does not matter. -/
theorem Sent.of_silent {s' : State F} (h : Sent env c s' t) (hsilent : Silent s s') :
    Sent env c s t := by
  obtain ⟨hreplies, hclosed, hinput⟩ := hsilent
  obtain ⟨hreply, hclosed', hinput', hsends⟩ := h
  rw [hreplies] at hreply
  exact ⟨hreply, hclosed'.trans hclosed, hinput'.trans hinput, hsends⟩

theorem silent_log : Silent s (log env s) := ⟨rfl, rfl, rfl⟩

/-- A handler that ends without a reply. -/
structure Gone (c : Conn) (s t : State F) : Prop where
  silent : Silent s t
  ended : t.phase c = .ended

theorem Gone.of_silent {s' : State F} (h : Gone c s' t) (hsilent : Silent s s') : Gone c s t := by
  obtain ⟨⟨hreplies, hclosed, hinput⟩, hended⟩ := h
  exact ⟨⟨hreplies.trans hsilent.replies, hclosed.trans hsilent.closed,
    hinput.trans hsilent.input⟩, hended⟩

theorem gone_finish (so se : Stream) : Gone c s (finish c so se s) :=
  ⟨⟨rfl, rfl, rfl⟩, Function.update_self _ _ _⟩

theorem failed_true (so se : Stream) : Sent env c s (failed env c so se true s) :=
  (sent_send _ _ rfl).of_silent silent_log

theorem failed_false (so se : Stream) : Gone c s (failed env c so se false s) :=
  (gone_finish so se).of_silent silent_log

/-- A handler answers behind its command, or it ends. -/
theorem conclude_answers (env : Env F) (c : Conn) (s : State F) (so se : Stream) (task : Option Task) (outcome : Outcome F) :
    (outcome.answerable = true → Sent env c s (conclude env c so se task s outcome))
      ∧ (outcome.answerable = false → Gone c s (conclude env c so se task s outcome)) := by
  have hfailed (s' : State F) (b : Bool) (hs' : Silent s s') :
      (b = true → Sent env c s (failed env c so se b s'))
        ∧ (b = false → Gone c s (failed env c so se b s')) := by
    constructor
    · rintro rfl
      exact (failed_true so se).of_silent hs'
    · rintro rfl
      exact (failed_false so se).of_silent hs'
  cases outcome with
  | returned value code =>
    cases hstr : value.str with
    | error b =>
      simp only [Outcome.answerable, conclude, hstr]
      exact hfailed s b ⟨rfl, rfl, rfl⟩
    | ok text =>
      cases hloggable : loggable text with
      | true =>
        cases hjson : value.json with
        | error b =>
          simp only [Outcome.answerable, conclude, hstr, hjson, hloggable, if_true, Bool.not_true,
            Bool.or_false]
          exact hfailed (log env s) b silent_log
        | ok v =>
          simp only [Outcome.answerable, conclude, hstr, hjson, hloggable, if_true]
          exact ⟨fun _ => (sent_send v code rfl).of_silent silent_log, Bool.noConfusion⟩
      | false =>
        have hsent := (hfailed (log env s) true silent_log).1 rfl
        cases hjson : value.json with
        | error b =>
          simp only [Outcome.answerable, conclude, hstr, hjson, hloggable, Bool.false_eq_true,
            if_false, Bool.not_false, Bool.or_true]
          exact ⟨fun _ => hsent, Bool.noConfusion⟩
        | ok v =>
          simp only [Outcome.answerable, conclude, hstr, hjson, hloggable, Bool.false_eq_true,
            if_false]
          exact ⟨fun _ => hsent, Bool.noConfusion⟩
  | exited => exact ⟨fun _ => sent_send _ 0 rfl, Bool.noConfusion⟩
  | userError msg =>
    cases hloggable : loggable msg with
    | true =>
      simp only [Outcome.answerable, conclude, hloggable, if_true]
      exact ⟨fun _ => (sent_send _ (-1) rfl).of_silent silent_log, Bool.noConfusion⟩
    | false =>
      simp only [Outcome.answerable, conclude, hloggable, Bool.false_eq_true, if_false]
      exact ⟨False.elim, fun _ => (gone_finish so se).of_silent silent_log⟩
  | raised b => exact hfailed s b ⟨rfl, rfl, rfl⟩

/-- A command sends nothing, and a timer's own outcomes can be logged. -/
theorem silent_invoke (env : Env F) (c : Conn) (s : State F) (args : List (Json F)) (behaviour : Behaviour F) :
    Silent s (invoke env c args behaviour s).1
      ∧ ((invoke env c args behaviour s).2.1.answerable = true ↔
        (env.route args = .other → behaviour.outcome.answerable = true)) := by
  unfold invoke
  cases hroute : env.route args with
  | add seconds say =>
    rcases add_cases c seconds say s with ⟨msg, hnew, heq⟩ | ⟨id, hnew, heq⟩
    · have hmsg : loggable msg = true := by
        unfold add at heq
        simp only [hnew, Prod.mk.injEq, Outcome.userError.injEq, and_true, true_and] at heq
        rw [← heq]
        exact loggable_ofText _
      simp only [heq]
      exact ⟨⟨rfl, rfl, rfl⟩, fun _ h => (nomatch h), fun _ => hmsg⟩
    · simp only [heq]
      exact ⟨⟨rfl, rfl, rfl⟩, fun _ h => (nomatch h), fun _ => rfl⟩
  | cancel timerId =>
    rcases cancel_cases env timerId s with ⟨id, -, -, heq⟩ | ⟨-, heq | ⟨msg, heq⟩⟩
    · simp only [heq]
      exact ⟨⟨rfl, rfl, rfl⟩, fun _ h => (nomatch h), fun _ => rfl⟩
    · simp only [heq]
      exact ⟨⟨rfl, rfl, rfl⟩, fun _ h => (nomatch h), fun _ => rfl⟩
    · simp only [heq]
      exact ⟨⟨rfl, rfl, rfl⟩, fun _ h => (nomatch h), fun _ => loggable_ofText msg⟩
  | other => exact ⟨⟨rfl, rfl, rfl⟩, fun h _ => h, fun h => h rfl⟩

/-- **The handler behind the reading of a command** answers, or ends without a reply. -/
theorem connected_answers (env : Env F) (c : Conn) (s : State F) (command : List UInt8) (behaviour : Behaviour F) :
    (Answerable env command behaviour → Sent env c s (connected env c command behaviour s))
      ∧ (¬ Answerable env command behaviour → Gone c s (connected env c command behaviour s)) := by
  have hrejected (msg : Json F) :
      Sent env c s (sendAndClose env c msg (-1) .rejecting (log env (log env s))) :=
    (sent_send msg (-1) rfl).of_silent ⟨rfl, rfl, rfl⟩
  cases hloads : env.loads command with
  | none =>
    simp only [Answerable, connected, hloads]
    exact ⟨fun _ => hrejected _, fun h => absurd trivial h⟩
  | some v =>
    cases hvalid : isInvalid v with
    | none =>
      simp only [Answerable, connected, hloads, hvalid]
      exact ⟨fun h => h.elim, fun _ => ⟨⟨rfl, rfl, rfl⟩, Function.update_self _ _ _⟩⟩
    | some invalid =>
      cases invalid with
      | true =>
        simp only [Answerable, connected, hloads, hvalid]
        exact ⟨fun _ => hrejected _, fun h => absurd trivial h⟩
      | false =>
        obtain ⟨hsilent, hiff⟩ := silent_invoke env c (redirect c (log env s)) (items v) behaviour
        obtain ⟨hsent, hgone⟩ := conclude_answers env c
          (invoke env c (items v) behaviour (redirect c (log env s))).1 s.stdout s.stderr
          (invoke env c (items v) behaviour (redirect c (log env s))).2.2
          (invoke env c (items v) behaviour (redirect c (log env s))).2.1
        have hsilent' : Silent s (invoke env c (items v) behaviour (redirect c (log env s))).1 :=
          ⟨hsilent.replies, hsilent.closed, hsilent.input⟩
        simp only [Answerable, connected, hloads, hvalid]
        constructor
        · exact fun h => (hsent (hiff.mpr h)).of_silent hsilent'
        · intro h
          exact (hgone (Bool.eq_false_iff.mpr fun h' => h (hiff.mp h'))).of_silent hsilent'

/-! ## A connection over a whole run -/

/-- The client of a connection is not gone. -/
def Stays (c : Conn) (_ : State F) : Label F → Prop
  | .disconnected c' => c' ≠ c
  | _ => True

/-- The handler is through with its response. -/
def Phase.isDone : Phase → Bool
  | .sleeping _ _ _ | .ended => true
  | _ => false

/-- What a connection has sent, by where its handler is. -/
inductive Replied (env : Env F) (p : Phase) (replies : List (List Char)) (closed : Bool)
    (input : Option (List UInt8 × Behaviour F)) : Prop
  | early : p = .absent ∨ p = .reading → replies = [] → closed = false → input = none →
      Replied env p replies closed input
  | sent (command : List UInt8) (behaviour : Behaviour F) (msg : Json F) (code : ℤ) :
      input = some (command, behaviour) → Answerable env command behaviour →
      replies = [reply env msg code] →
      p.sends = true ∧ closed = false ∨ p.isDone = true ∧ closed = true →
      Replied env p replies closed input
  | gone (command : List UInt8) (behaviour : Behaviour F) : input = some (command, behaviour) →
      ¬ Answerable env command behaviour → replies = [] → closed = false → p = .ended →
      Replied env p replies closed input

/-- A connection in a state. -/
def RepliedAt (env : Env F) (s : State F) (c : Conn) : Prop :=
  Replied env (s.phase c) (s.replies c) (s.closed c) (s.input c)

/-- Nothing is sent, closed or read at a connection. -/
structure Untouched (c : Conn) (s t : State F) : Prop where
  replies : t.replies c = s.replies c
  closed : t.closed c = s.closed c
  input : t.input c = s.input c

theorem Silent.untouched (h : Silent s t) (c : Conn) : Untouched c s t :=
  ⟨congrFun h.replies c, congrFun h.closed c, congrFun h.input c⟩

theorem Sent.untouched {c' : Conn} (h : Sent env c' s t) (hc : c ≠ c') : Untouched c s t := by
  obtain ⟨⟨msg, code, hreplies⟩, hclosed, hinput, -⟩ := h
  refine ⟨?_, congrFun hclosed c, congrFun hinput c⟩
  rw [hreplies, Function.update_of_ne hc]

theorem silent_wakeUp (env : Env F) (c : Conn) (s : State F) (so se : Stream) (task : Task) (speech : Speech) :
    Silent s (wakeUp env c so se task speech s) := by
  unfold wakeUp
  dsimp only
  split
  · exact ⟨rfl, rfl, rfl⟩
  · exact ⟨rfl, rfl, rfl⟩
  · split
    · exact ⟨rfl, rfl, rfl⟩
    · exact ⟨rfl, rfl, rfl⟩

theorem silent_runTimer (so se : Stream) (task : Task) : Silent s (runTimer env c so se task s) := by
  unfold runTimer
  dsimp only
  split
  · exact ⟨rfl, rfl, rfl⟩
  · exact ⟨rfl, rfl, rfl⟩

theorem isDone_update {phase : Conn → Phase} {p : Phase} (h : p.isDone = true) :
    (Function.update phase c p c).isDone = true := by
  rw [Function.update_self, h]

theorem runTimer_isDone (so se : Stream) (task : Task) (s : State F) :
    ((runTimer env c so se task s).phase c).isDone = true := by
  unfold runTimer
  dsimp only
  split
  · exact isDone_update rfl
  · exact isDone_update rfl

/-- A connection that is closed when its response has gone out. -/
theorem delivered_cases (h : step env s (.delivered c) = some t) :
    Silent { s with closed := Function.update s.closed c true } t
      ∧ (t.phase c).isDone = true := by
  unfold step at h
  cases hphase : s.phase c with
  | rejecting =>
    simp only [hphase] at h
    cases h
    exact ⟨⟨rfl, rfl, rfl⟩, isDone_update rfl⟩
  | excusing so se =>
    simp only [hphase] at h
    cases h
    exact ⟨⟨rfl, rfl, rfl⟩, isDone_update rfl⟩
  | answering so se task =>
    simp only [hphase] at h
    cases task with
    | none =>
      cases h
      exact ⟨⟨rfl, rfl, rfl⟩, isDone_update rfl⟩
    | some task =>
      cases h
      exact ⟨silent_runTimer so se task, runTimer_isDone so se task _⟩
  | _ => simp only [hphase] at h; cases h

/-- A response can go out. -/
theorem delivered_enabled (env : Env F) (h : (s.phase c).sends = true) :
    ∃ t, step env s (.delivered c) = some t := by
  unfold step
  cases hphase : s.phase c with
  | rejecting =>
    simp only [hphase]
    exact ⟨_, rfl⟩
  | excusing so se =>
    simp only [hphase]
    exact ⟨_, rfl⟩
  | answering so se task =>
    simp only [hphase]
    cases task with
    | none => exact ⟨_, rfl⟩
    | some task => exact ⟨_, rfl⟩
  | _ =>
    rw [hphase] at h
    exact nomatch h

theorem read_cases {command : List UInt8} {behaviour : Behaviour F}
    (h : step env s (.read c command behaviour) = some t) : s.phase c = .reading ∧
      t = connected env c command behaviour
        { s with input := Function.update s.input c (some (command, behaviour)) } := by
  unfold step at h
  cases hphase : s.phase c with
  | reading =>
    simp only [hphase] at h
    cases h
    exact ⟨rfl, rfl⟩
  | _ => simp only [hphase] at h; cases h

/-- A step that another connection takes. -/
theorem other_step {l : Label F} (h : step env s l = some t) (hc : c ≠ l.conn) :
    Untouched c s t := by
  cases l with
  | connect c' =>
    unfold step at h
    cases hphase : s.phase c' with
    | absent =>
      simp only [hphase] at h
      cases h
      exact ⟨rfl, rfl, rfl⟩
    | _ => simp only [hphase] at h; cases h
  | read c' command behaviour =>
    obtain ⟨-, rfl⟩ := read_cases h
    have hinput : Function.update s.input c' (some (command, behaviour)) c = s.input c :=
      Function.update_of_ne hc _ _
    obtain ⟨hsent, hgone⟩ := connected_answers env c'
      { s with input := Function.update s.input c' (some (command, behaviour)) } command behaviour
    by_cases hanswers : Answerable env command behaviour
    · obtain ⟨hreplies, hclosed, hinput'⟩ := (hsent hanswers).untouched hc
      exact ⟨hreplies, hclosed, hinput'.trans hinput⟩
    · obtain ⟨hreplies, hclosed, hinput'⟩ := (hgone hanswers).silent.untouched c
      exact ⟨hreplies, hclosed, hinput'.trans hinput⟩
  | delivered c' =>
    obtain ⟨hreplies, hclosed, hinput⟩ := (delivered_cases h).1.untouched c
    exact ⟨hreplies, hclosed.trans (Function.update_of_ne hc _ _), hinput⟩
  | disconnected c' =>
    unfold step at h
    cases hphase : s.phase c' with
    | rejecting =>
      simp only [hphase] at h
      cases h
      exact ⟨rfl, rfl, rfl⟩
    | excusing so se =>
      simp only [hphase] at h
      cases h
      exact ⟨rfl, rfl, rfl⟩
    | answering so se task =>
      simp only [hphase] at h
      cases h
      exact (failed_true so se).untouched hc
    | _ => simp only [hphase] at h; cases h
  | wake c' speech =>
    unfold step at h
    cases hphase : s.phase c' with
    | sleeping so se task =>
      simp only [hphase] at h
      cases h
      exact (silent_wakeUp env c' s so se task speech).untouched c
    | _ => simp only [hphase] at h; cases h

theorem RepliedAt.of_untouched (h : RepliedAt env s c) (ht : Untouched c s t)
    (hphase : t.phase c = s.phase c) : RepliedAt env t c := by
  unfold RepliedAt
  rw [hphase, ht.replies, ht.closed, ht.input]
  exact h

/-- A handler that is resumed is not through with its response, or it sleeps. -/
theorem RepliedAt.read (h : RepliedAt env s c) {command : List UInt8} {behaviour : Behaviour F}
    (hstep : step env s (.read c command behaviour) = some t) : RepliedAt env t c := by
  obtain ⟨hphase, rfl⟩ := read_cases hstep
  have hinput : Function.update s.input c (some (command, behaviour)) c =
      some (command, behaviour) := Function.update_self _ _ _
  unfold RepliedAt at h
  rw [hphase] at h
  obtain ⟨hnone, hopen⟩ : s.replies c = [] ∧ s.closed c = false := by
    cases h with
    | early _ hreplies hclosed _ => exact ⟨hreplies, hclosed⟩
    | sent _ _ _ _ _ _ _ hp => exact absurd hp (by simp [Phase.sends, Phase.isDone])
    | gone _ _ _ _ _ _ hp => exact nomatch hp
  obtain ⟨hsent, hgone⟩ := connected_answers env c
    { s with input := Function.update s.input c (some (command, behaviour)) } command behaviour
  by_cases hanswers : Answerable env command behaviour
  · obtain ⟨⟨msg, code, hreplies⟩, hclosed, hinput', hsends⟩ := hsent hanswers
    refine .sent command behaviour msg code ?_ hanswers ?_ (.inl ⟨hsends, ?_⟩)
    · exact (congrFun hinput' c).trans hinput
    · rw [hreplies, Function.update_self]
      show s.replies c ++ _ = _
      rw [hnone, List.nil_append]
    · exact (congrFun hclosed c).trans hopen
  · obtain ⟨⟨hreplies, hclosed, hinput'⟩, hended⟩ := hgone hanswers
    exact .gone command behaviour ((congrFun hinput' c).trans hinput) hanswers
      ((congrFun hreplies c).trans hnone) ((congrFun hclosed c).trans hopen) hended

theorem RepliedAt.delivered (h : RepliedAt env s c) (hstep : step env s (.delivered c) = some t) :
    RepliedAt env t c := by
  obtain ⟨⟨hreplies, hclosed, hinput⟩, hdone⟩ := delivered_cases hstep
  have hsends : (s.phase c).sends = true := by
    unfold step at hstep
    cases hphase : s.phase c with
    | rejecting => rfl
    | excusing so se => rfl
    | answering so se task => rfl
    | _ => simp only [hphase] at hstep; cases hstep
  unfold RepliedAt at h ⊢
  rw [congrFun hreplies c, congrFun hinput c, congrFun hclosed c]
  have htrue : Function.update s.closed c true c = true := Function.update_self _ _ _
  cases h with
  | early hp =>
    rcases hp with hp | hp
    · rw [hp] at hsends
      exact nomatch hsends
    · rw [hp] at hsends
      exact nomatch hsends
  | sent command behaviour msg code hin hanswers hsent _ =>
    exact .sent command behaviour msg code hin hanswers hsent (.inr ⟨hdone, htrue⟩)
  | gone _ _ _ _ _ _ hp =>
    rw [hp] at hsends
    exact nomatch hsends

theorem RepliedAt.wake (h : RepliedAt env s c) {speech : Speech}
    (hstep : step env s (.wake c speech) = some t) : RepliedAt env t c := by
  unfold step at hstep
  cases hphase : s.phase c with
  | sleeping so se task =>
    simp only [hphase] at hstep
    cases hstep
    have hended : (wakeUp env c so se task speech s).phase c = .ended := by
      rw [wakeUp_phase, Function.update_self]
    obtain ⟨hreplies, hclosed, hinput⟩ := (silent_wakeUp env c s so se task speech).untouched c
    unfold RepliedAt at h ⊢
    rw [hreplies, hclosed, hinput, hended]
    rw [hphase] at h
    cases h with
    | early hp => exact absurd hp (by simp)
    | sent command behaviour msg code hin hanswers hsent hp =>
      rcases hp with ⟨hp, -⟩ | ⟨-, hclosed⟩
      · exact nomatch hp
      · exact .sent command behaviour msg code hin hanswers hsent (.inr ⟨rfl, hclosed⟩)
    | gone _ _ _ _ _ _ hp => exact nomatch hp
  | _ => simp only [hphase] at hstep; cases hstep

theorem repliedAt_of_reach (h : (system env).Reach (Stays c) s) : RepliedAt env s c := by
  refine Lib.System.Reach.invariant (I := fun s => RepliedAt env s c) ?_ ?_ h
  · rintro s rfl
    exact .early (.inl rfl) rfl rfl rfl
  · intro s t l hs hl hstep
    by_cases hc : c = l.conn
    · cases l with
      | connect c' =>
        have hcc : c = c' := hc
        subst hcc
        have hstep' : step env s (.connect c) = some t := hstep
        unfold step at hstep'
        cases hphase : s.phase c with
        | absent =>
          simp only [hphase] at hstep'
          cases hstep'
          unfold RepliedAt at hs
          rw [hphase] at hs
          cases hs with
          | early _ hreplies hclosed hinput =>
            exact .early (.inr (Function.update_self _ _ _)) hreplies hclosed hinput
          | sent _ _ _ _ _ _ _ hp => exact absurd hp (by simp [Phase.sends, Phase.isDone])
          | gone _ _ _ _ _ _ hp => exact nomatch hp
        | _ => simp only [hphase] at hstep'; cases hstep'
      | read c' command behaviour =>
        have hcc : c = c' := hc
        subst hcc
        exact hs.read hstep
      | delivered c' =>
        have hcc : c = c' := hc
        subst hcc
        exact hs.delivered hstep
      | disconnected c' => exact absurd hc.symm hl
      | wake c' speech =>
        have hcc : c = c' := hc
        subst hcc
        exact hs.wake hstep
    · exact hs.of_untouched (other_step hstep hc) (phase_of_step hstep hc)

/-- **A command is answered once, and the connection closed, exactly if it can be answered**: for
every client that stays connected, from the time that its command is read. -/
theorem answered_iff {command : List UInt8} {behaviour : Behaviour F}
    (h : (system env).Reach (Stays c) s) (hinput : s.input c = some (command, behaviour)) :
    Answers env s c ↔ Answerable env command behaviour := by
  have hreplied := repliedAt_of_reach h
  unfold RepliedAt at hreplied
  cases hreplied with
  | early _ _ _ hnone => exact nomatch hnone.symm.trans hinput
  | sent command' behaviour' msg code hinput' hanswers hreplies hp =>
    rw [hinput'] at hinput
    cases hinput
    refine ⟨fun _ => hanswers, fun _ => ⟨⟨msg, code, hreplies⟩, ?_⟩⟩
    rcases hp with ⟨hsends, -⟩ | ⟨-, hclosed⟩
    · right
      obtain ⟨t, hstep⟩ := delivered_enabled env hsends
      obtain ⟨⟨hreplies', hclosed, -⟩, -⟩ := delivered_cases hstep
      exact ⟨t, hstep, (congrFun hclosed c).trans (Function.update_self _ _ _),
        congrFun hreplies' c⟩
    · exact .inl hclosed
  | gone command' behaviour' hinput' hanswers hreplies _ _ =>
    rw [hinput'] at hinput
    cases hinput
    constructor
    · rintro ⟨⟨msg, code, hone⟩, -⟩
      exact nomatch hreplies.symm.trans hone
    · exact fun h => absurd h hanswers

/-- A reply is one JSON object with two members. -/
theorem loads_reply (hfloats : Json.Lawful env.floats) {msg : Json F} (h : Json.Keyed msg)
    (code : ℤ) : Json.loads env.floats (reply env msg code) =
      some (.obj [(text "response", msg), (text "code", .int code)]) := by
  have hnames : [text "response", text "code"].Nodup := by decide
  exact Json.loads_dumps hfloats false ⟨hnames, h, trivial, trivial⟩

/-! ## A number and an empty list -/

/-- A client that sends a text and closes its side. -/
def sends (command : String) : List (Label Unit) := [.connect 0, .read 0 (bytes command) silent]

instance : DecidableRel (Stays (F := F) c) := fun _ l =>
  match l with
  | .connect _ => .isTrue trivial
  | .read _ _ _ => .isTrue trivial
  | .delivered _ => .isTrue trivial
  | .disconnected c' => inferInstanceAs (Decidable (c' ≠ c))
  | .wake _ _ => .isTrue trivial

/-- A number has no length, and is not answered. -/
theorem number_unanswered : ¬ ∀ s, (system plainEnv).Reach (Stays 0) s → (s.input 0).isSome = true →
    Answers plainEnv s 0 := by
  intro hall
  have hrun : ((system plainEnv).runIf (Stays 0) .start (sends "5")).map
      (fun s => ((s.input 0).isSome, s.replies 0)) = some (true, []) := by
    decide +kernel
  obtain ⟨s, hs, heq⟩ := Option.map_eq_some_iff.mp hrun
  obtain ⟨hinput, hreplies⟩ := Prod.mk.inj heq
  obtain ⟨⟨msg, code, hone⟩, -⟩ := hall s (Lib.System.Reach.runIf (.init rfl) hs) hinput
  exact nomatch hreplies.symm.trans hone

/-- An empty list is answered. -/
theorem answered_iff_empty : ∃ s, (system plainEnv).run .start (sends "[]") = some s
    ∧ Answers plainEnv s 0 := by
  have hinput : ((system plainEnv).runIf (Stays 0) .start (sends "[]")).map (·.input 0) =
      some (some (bytes "[]", silent)) := rfl
  obtain ⟨s, hs, hinput⟩ := Option.map_eq_some_iff.mp hinput
  refine ⟨s, Lib.System.run_of_runIf hs, ?_⟩
  refine (answered_iff (Lib.System.Reach.runIf (.init rfl) hs) hinput).mpr ?_
  have hloads : plainEnv.loads (bytes "[]") = some (.arr []) := rfl
  unfold Answerable
  rw [hloads]
  trivial

end Holchain.Python
