import Holchain.Laws.Holperd

/-!
# Laws.HolperdStreams — whose stream `sys.stdout` is

A handler saves the two streams, puts its own in their place, waits, and puts back what it has
saved. That is right where handlers leave in the reverse order of their entering (`Nested`): then
the streams are those of the handler that has entered last, each handler has saved those of the one
before it, and the first one has saved the streams of the process (`Layered`).
-/

namespace Holchain.Python

open Lib (Str Json text)

variable {F : Type} {env : Env F} {s t : State F} {c : Conn}

/-- What the `finally` block of a handler puts back. -/
def Phase.saved : Phase → Option (Stream × Stream)
  | .answering so se _ | .excusing so se | .sleeping so se _ => some (so, se)
  | _ => none

/-- A handler that has entered runs its `finally` block when it is resumed so. -/
def Phase.leaves (env : Env F) : Phase → Label F → Bool
  | .answering _ _ none, .delivered _ => true
  | .answering _ _ (some task), .delivered _ => !env.sleeps task.duration
  | .excusing _ _, .delivered _ => true
  | .excusing _ _, .disconnected _ => true
  | .sleeping _ _ _, .wake _ _ => true
  | _, _ => false

/-- A handler that leaves is the one that has entered last. -/
def Nested (env : Env F) (s : State F) (l : Label F) : Prop :=
  (s.phase l.conn).leaves env l = true → s.opened.head? = some l.conn

instance : DecidableRel (Nested (F := F) env) := fun _ _ => inferInstanceAs (Decidable (_ → _))

/-! ## What a step does to the streams -/

/-- The streams and who has entered stay as they are. -/
structure SameStreams (s t : State F) : Prop where
  stdout : t.stdout = s.stdout
  stderr : t.stderr = s.stderr
  opened : t.opened = s.opened

/-- Behind a command: the handler waits with its streams in place, or it has put the old ones
back. -/
inductive Concluded (c : Conn) (so se : Stream) (s t : State F) : Prop
  | waits (p : Phase) : SameStreams s t → p.saved = some (so, se) →
      t.phase = Function.update s.phase c p → Concluded c so se s t
  | left : t.stdout = so → t.stderr = se → t.opened = s.opened.erase c →
      t.phase = Function.update s.phase c .ended → Concluded c so se s t

theorem concluded_send {so se : Stream} (msg : Json F) (code : ℤ) {awaiting : Phase}
    (h : awaiting.saved = some (so, se)) :
    Concluded c so se s (sendAndClose env c msg code awaiting s) :=
  .waits awaiting ⟨rfl, rfl, rfl⟩ h rfl

theorem concluded_finish (so se : Stream) : Concluded c so se s (finish c so se s) :=
  .left rfl rfl rfl rfl

/-- What is only written does not matter. -/
theorem Concluded.of_same {so se : Stream} {s' : State F} (h : Concluded c so se s' t)
    (hstreams : SameStreams s s') (hphase : s'.phase = s.phase) : Concluded c so se s t := by
  obtain ⟨hout, herr, hopened⟩ := hstreams
  cases h with
  | waits p hsame hp hp' =>
    obtain ⟨hout', herr', hopened'⟩ := hsame
    exact .waits p ⟨hout'.trans hout, herr'.trans herr, hopened'.trans hopened⟩ hp (hphase ▸ hp')
  | left hso hse hopened' hp => exact .left hso hse (hopened ▸ hopened') (hphase ▸ hp)

theorem Concluded.behind_log {so se : Stream} (h : Concluded c so se (log env s) t) :
    Concluded c so se s t := h.of_same ⟨rfl, rfl, rfl⟩ rfl

theorem concluded_failed (so se : Stream) (loggable : Bool) :
    Concluded c so se s (failed env c so se loggable s) := by
  cases loggable with
  | true => exact (concluded_send _ _ rfl).behind_log
  | false => exact (concluded_finish so se).behind_log

theorem concluded_conclude (env : Env F) (c : Conn) (so se : Stream) (task : Option Task) (s : State F)
    (outcome : Outcome F) : Concluded c so se s (conclude env c so se task s outcome) := by
  cases outcome with
  | returned value code =>
    rw [conclude]
    split
    · exact concluded_failed so se _
    · split
      · split
        · exact (concluded_failed so se _).behind_log
        · exact (concluded_send _ code rfl).behind_log
      · exact (concluded_failed so se _).behind_log
  | exited => exact concluded_send _ 0 rfl
  | userError msg =>
    rw [conclude]
    split
    · exact (concluded_send _ (-1) rfl).behind_log
    · exact (concluded_finish so se).behind_log
  | raised loggable => exact concluded_failed so se loggable

/-- A command only writes. -/
theorem sameStreams_invoke (env : Env F) (c : Conn) (s : State F) (args : List (Json F)) (behaviour : Behaviour F) :
    SameStreams s (invoke env c args behaviour s).1
      ∧ (invoke env c args behaviour s).1.phase = s.phase := by
  unfold invoke
  cases env.route args with
  | add seconds say =>
    rcases add_cases c seconds say s with ⟨msg, -, heq⟩ | ⟨id, -, heq⟩
    · simp only [heq]
      exact ⟨⟨rfl, rfl, rfl⟩, trivial⟩
    · simp only [heq]
      exact ⟨⟨rfl, rfl, rfl⟩, trivial⟩
  | cancel timerId =>
    rcases cancel_cases env timerId s with ⟨id, -, -, heq⟩ | ⟨-, heq | ⟨msg, heq⟩⟩
    · simp only [heq]
      exact ⟨⟨rfl, rfl, rfl⟩, trivial⟩
    · simp only [heq]
      exact ⟨⟨rfl, rfl, rfl⟩, trivial⟩
    · simp only [heq]
      exact ⟨⟨rfl, rfl, rfl⟩, trivial⟩
  | other => exact ⟨⟨rfl, rfl, rfl⟩, rfl⟩

/-- What a step does to the streams. -/
inductive Turn (env : Env F) (s t : State F) (l : Label F) (c : Conn) : Prop
  | stays (p : Phase) : SameStreams s t → p.saved = (s.phase c).saved →
      t.phase = Function.update s.phase c p → Turn env s t l c
  | enters (p : Phase) : (s.phase c).saved = none → t.stdout = .own c → t.stderr = .own c →
      t.opened = c :: s.opened → p.saved = some (s.stdout, s.stderr) →
      t.phase = Function.update s.phase c p → Turn env s t l c
  | leaves (so se : Stream) : (s.phase c).leaves env l = true → (s.phase c).saved = some (so, se) → t.stdout = so →
      t.stderr = se → t.opened = s.opened.erase c → t.phase = Function.update s.phase c .ended →
      Turn env s t l c

theorem Turn.stays_of {l : Label F} (p : Phase) {q : Phase} (hphase : s.phase c = q) (hsame : SameStreams s t)
    (hp : p.saved = q.saved) (ht : t.phase = Function.update s.phase c p) : Turn env s t l c := by
  subst hphase
  exact .stays p hsame hp ht

theorem Turn.leaves_of {l : Label F} {so se : Stream} {q : Phase} (hphase : s.phase c = q)
    (hq : q.saved = some (so, se)) (hl : q.leaves env l = true) (hout : t.stdout = so)
    (herr : t.stderr = se) (hopened : t.opened = s.opened.erase c)
    (ht : t.phase = Function.update s.phase c .ended) : Turn env s t l c := by
  subst hphase
  exact .leaves so se hl hq hout herr hopened ht

theorem turn_rejected {l : Label F} (hphase : s.phase c = .reading) (msg : Json F) :
    Turn env s (sendAndClose env c msg (-1) .rejecting (log env (log env s))) l c :=
  .stays_of .rejecting hphase ⟨rfl, rfl, rfl⟩ rfl rfl

theorem turn_connected (env : Env F) (s : State F) (l : Label F) (command : List UInt8) (behaviour : Behaviour F)
    (hphase : s.phase c = .reading) : Turn env s (connected env c command behaviour s) l c := by
  unfold connected
  cases env.loads command with
  | none => exact turn_rejected hphase _
  | some v =>
    simp only
    split
    · exact .stays_of .ended hphase ⟨rfl, rfl, rfl⟩ rfl rfl
    · exact turn_rejected hphase _
    · obtain ⟨hsame, hinvoke⟩ := sameStreams_invoke env c (redirect c (log env s)) (items v) behaviour
      have hconcluded := (concluded_conclude env c s.stdout s.stderr
        (invoke env c (items v) behaviour (redirect c (log env s))).2.2
        (invoke env c (items v) behaviour (redirect c (log env s))).1
        (invoke env c (items v) behaviour (redirect c (log env s))).2.1).of_same hsame hinvoke
      cases hconcluded with
      | waits p hstreams hp ht =>
        exact .enters p (by rw [hphase]; rfl) hstreams.stdout hstreams.stderr hstreams.opened hp ht
      | left hout herr hopened ht =>
        refine .stays_of .ended hphase ⟨hout, herr, hopened.trans ?_⟩ rfl ht
        exact List.erase_cons_head c s.opened

theorem turn_delivered (h : step env s (.delivered c) = some t) : Turn env s t (.delivered c) c := by
  unfold step at h
  cases hphase : s.phase c with
  | absent => simp only [hphase] at h; cases h
  | reading => simp only [hphase] at h; cases h
  | sleeping so se task => simp only [hphase] at h; cases h
  | ended => simp only [hphase] at h; cases h
  | rejecting =>
    simp only [hphase] at h
    cases h
    exact .stays_of .ended hphase ⟨rfl, rfl, rfl⟩ rfl rfl
  | excusing so se =>
    simp only [hphase] at h
    cases h
    exact .leaves_of hphase rfl rfl rfl rfl rfl rfl
  | answering so se task =>
    simp only [hphase] at h
    cases task with
    | none =>
      cases h
      exact .leaves_of hphase rfl rfl rfl rfl rfl rfl
    | some task =>
      cases h
      cases hsleeps : env.sleeps task.duration with
      | true =>
        rw [runTimer]
        simp only [hsleeps, if_true]
        exact .stays_of (.sleeping so se task) hphase ⟨rfl, rfl, rfl⟩ rfl rfl
      | false =>
        rw [runTimer]
        simp only [hsleeps, Bool.false_eq_true, if_false]
        exact .leaves_of hphase rfl (congrArg not hsleeps) rfl rfl rfl rfl

theorem turn_disconnected (h : step env s (.disconnected c) = some t) :
    Turn env s t (.disconnected c) c := by
  unfold step at h
  cases hphase : s.phase c with
  | absent => simp only [hphase] at h; cases h
  | reading => simp only [hphase] at h; cases h
  | sleeping so se task => simp only [hphase] at h; cases h
  | ended => simp only [hphase] at h; cases h
  | rejecting =>
    simp only [hphase] at h
    cases h
    exact .stays_of .ended hphase ⟨rfl, rfl, rfl⟩ rfl rfl
  | excusing so se =>
    simp only [hphase] at h
    cases h
    exact .leaves_of hphase rfl rfl rfl rfl rfl rfl
  | answering so se task =>
    simp only [hphase] at h
    cases h
    exact .stays_of (.excusing so se) hphase ⟨rfl, rfl, rfl⟩ rfl rfl

theorem turn_wake {speech : Speech} (h : step env s (.wake c speech) = some t) :
    Turn env s t (.wake c speech) c := by
  unfold step at h
  cases hphase : s.phase c with
  | sleeping so se task =>
    simp only [hphase] at h
    cases h
    unfold wakeUp
    dsimp only
    split
    · exact .leaves_of hphase rfl rfl rfl rfl rfl rfl
    · exact .leaves_of hphase rfl rfl rfl rfl rfl rfl
    · split
      · exact .leaves_of hphase rfl rfl rfl rfl rfl rfl
      · exact .leaves_of hphase rfl rfl rfl rfl rfl rfl
  | _ => simp only [hphase] at h; cases h

theorem turn_of_step {l : Label F} (h : step env s l = some t) : Turn env s t l l.conn := by
  cases l with
  | connect c =>
    unfold step at h
    cases hphase : s.phase c with
    | absent =>
      simp only [hphase] at h
      cases h
      exact .stays_of .reading hphase ⟨rfl, rfl, rfl⟩ rfl rfl
    | _ => simp only [hphase] at h; cases h
  | read c command behaviour =>
    unfold step at h
    cases hphase : s.phase c with
    | reading =>
      simp only [hphase] at h
      cases h
      cases turn_connected env
          { s with input := Function.update s.input c (some (command, behaviour)) }
          (.read c command behaviour) command behaviour hphase with
      | stays p hsame hp ht => exact .stays p ⟨hsame.stdout, hsame.stderr, hsame.opened⟩ hp ht
      | enters p hnone hout herr hopened hp ht => exact .enters p hnone hout herr hopened hp ht
      | leaves so se hl =>
        have hreading : (s.phase c).leaves env (.read c command behaviour) = false := by
          rw [hphase]
          rfl
        exact nomatch hreading.symm.trans hl
    | _ => simp only [hphase] at h; cases h
  | delivered c => exact turn_delivered h
  | disconnected c => exact turn_disconnected h
  | wake c speech => exact turn_wake h

/-! ## Layers -/

/-- The stream of the handler that has entered last. -/
def top : List Conn → Stream
  | [] => .original
  | c :: _ => .own c

/-- Each handler has saved the stream of the one before it. -/
def Saved (phase : Conn → Phase) : List Conn → Prop
  | [] => True
  | c :: rest => (phase c).saved = some (top rest, top rest) ∧ Saved phase rest

/-- The streams and what the handlers have saved of them. -/
structure Layered (s : State F) : Prop where
  stdout : s.stdout = top s.opened
  stderr : s.stderr = top s.opened
  nodup : s.opened.Nodup
  saved : Saved s.phase s.opened

theorem Saved.ne_none {phase : Conn → Phase} {opened : List Conn} (h : Saved phase opened)
    (hc : c ∈ opened) : (phase c).saved ≠ none := by
  induction opened with
  | nil => exact nomatch hc
  | cons c' rest ih =>
    rcases List.mem_cons.mp hc with rfl | hc
    · rw [h.1]
      exact Option.some_ne_none _
    · exact ih h.2 hc

theorem Saved.congr {phase phase' : Conn → Phase} {opened : List Conn} (h : Saved phase opened)
    (heq : ∀ c ∈ opened, (phase' c).saved = (phase c).saved) : Saved phase' opened := by
  induction opened with
  | nil => trivial
  | cons c rest ih =>
    refine ⟨?_, ih h.2 fun c' hc' => heq c' (List.mem_cons_of_mem c hc')⟩
    rw [heq c List.mem_cons_self, h.1]

theorem saved_update {p : Phase} (ht : t.phase = Function.update s.phase c p) {c' : Conn}
    (hne : c' ≠ c) : (t.phase c').saved = (s.phase c').saved := by
  rw [ht, Function.update_of_ne hne]

theorem Layered.turn {l : Label F} (h : Layered s) (hl : (s.phase c).leaves env l = true → s.opened.head? = some c)
    (hturn : Turn env s t l c) : Layered t := by
  cases hturn with
  | stays p hsame hp ht =>
    refine ⟨?_, ?_, ?_, ?_⟩
    · rw [hsame.stdout, hsame.opened, h.stdout]
    · rw [hsame.stderr, hsame.opened, h.stderr]
    · rw [hsame.opened]
      exact h.nodup
    · rw [hsame.opened]
      refine h.saved.congr fun c' _ => ?_
      by_cases hc : c' = c
      · rw [hc, ht, Function.update_self, hp]
      · exact saved_update ht hc
  | enters p hnone hout herr hopened hp ht =>
    have hnew : c ∉ s.opened := fun hmem => h.saved.ne_none hmem hnone
    have hsaved : (t.phase c).saved = some (top s.opened, top s.opened) := by
      rw [ht, Function.update_self, hp, h.stdout, h.stderr]
    refine ⟨?_, ?_, ?_, ?_⟩
    · rw [hout, hopened]
      rfl
    · rw [herr, hopened]
      rfl
    · rw [hopened]
      exact List.nodup_cons.mpr ⟨hnew, h.nodup⟩
    · rw [hopened]
      refine ⟨hsaved, h.saved.congr fun c' hc' => saved_update ht ?_⟩
      rintro rfl
      exact hnew hc'
  | leaves so se hleaves hsaved hout herr hopened ht =>
    obtain ⟨rest, hrest⟩ := List.head?_eq_some_iff.mp (hl hleaves)
    have hlayers := h.saved
    have hnodup := h.nodup
    rw [hrest] at hlayers hnodup
    obtain ⟨htop, hbelow⟩ := hlayers
    obtain ⟨hnew, hnodup⟩ := List.nodup_cons.mp hnodup
    rw [hsaved] at htop
    obtain ⟨hso, hse⟩ := Prod.mk.inj (Option.some.inj htop)
    have herase : t.opened = rest := by
      rw [hopened, hrest, List.erase_cons_head]
    refine ⟨?_, ?_, ?_, ?_⟩
    · rw [hout, hso, herase]
    · rw [herr, hse, herase]
    · rw [herase]
      exact hnodup
    · rw [herase]
      refine hbelow.congr fun c' hc' => saved_update ht ?_
      rintro rfl
      exact hnew hc'

theorem layered_of_reach (h : (system env).Reach (Nested env) s) : Layered s := by
  apply Lib.System.Reach.invariant _ _ h
  · rintro s rfl
    exact ⟨rfl, rfl, List.nodup_nil, trivial⟩
  · exact fun s t l hs hl hstep => hs.turn hl (turn_of_step hstep)

/-! ## What an Exit returns -/

/-- A command that is invoked, and does what the label says. -/
structure Invokes (env : Env F) (command : List UInt8) (args : List (Json F)) : Prop where
  loads : env.loads command = some (.arr args)
  nonempty : args ≠ []
  other : env.route args = .other

/-- **The text of an Exit is what its command has printed**, whatever else is going on. -/
theorem exit_reply {command : List UInt8} {args : List (Json F)} {behaviour : Behaviour F}
    (hinvokes : Invokes env command args) (hexit : behaviour.outcome = .exited)
    (h : step env s (.read c command behaviour) = some t) :
    t.replies c = s.replies c ++ [reply env (.str behaviour.printed) 0] := by
  obtain ⟨hloads, hne, hother⟩ := hinvokes
  unfold step at h
  cases hphase : s.phase c with
  | reading =>
    simp only [hphase] at h
    cases h
    obtain ⟨arg, args', rfl⟩ := List.exists_cons_of_ne_nil hne
    have hwritten (u : State F) : (write behaviour.printed (redirect c u)).written (.own c) =
        behaviour.printed := by
      have hempty : (redirect c u).written (.own c) = text "" := Function.update_self _ _ _
      have hself : (write behaviour.printed (redirect c u)).written (.own c) =
          ((redirect c u).written (.own c)).append behaviour.printed := Function.update_self _ _ _
      rw [hself, hempty]
      exact Str.ofText_nil_append behaviour.printed
    have hvalid : isInvalid (.arr (arg :: args') : Json F) = some false := rfl
    have hitems : items (.arr (arg :: args') : Json F) = arg :: args' := rfl
    simp only [connected, hloads, hvalid, hitems, invoke, hother, hexit, conclude]
    show Function.update _ c _ c = _
    rw [Function.update_self]
    show _ ++ [reply env (.str ((write behaviour.printed (redirect c _)).written (.own c))) 0] = _
    rw [hwritten]
    rfl
  | _ => simp only [hphase] at h; cases h

/-- **The streams are put back** where handlers leave in the reverse order of their entering: as
long as none is between its redirection and its `finally` block they are those of the process. -/
theorem streams_are_restored (h : (system env).Reach (Nested env) s) :
    ((∀ c, (s.phase c).saved = none) → s.stdout = .original ∧ s.stderr = .original)
      ∧ ∀ c command args behaviour t, Invokes env command args → behaviour.outcome = .exited →
        step env s (.read c command behaviour) = some t →
          t.replies c = s.replies c ++ [reply env (.str behaviour.printed) 0] := by
  have hlayered := layered_of_reach h
  constructor
  · intro hnone
    have hopened : s.opened = [] := by
      cases hcases : s.opened with
      | nil => rfl
      | cons c rest =>
        have hsaved := hlayered.saved
        rw [hcases] at hsaved
        exact absurd (hnone c) (hsaved.ne_none List.mem_cons_self)
    rw [hlayered.stdout, hlayered.stderr, hopened]
    exact ⟨rfl, rfl⟩
  · intro c command args behaviour t hinvokes hexit hstep
    exact exit_reply hinvokes hexit hstep

/-! ## Handlers that overlap -/

theorem saved_of_idle (h : s.phase c = .absent ∨ s.phase c = .ended) : (s.phase c).saved = none := by
  rcases h with h | h
  · rw [h]
    rfl
  · rw [h]
    rfl

/-- Two handlers whose commands only exit. -/
def twoExits (leaving : List (Label Unit)) : List (Label Unit) :=
  [.connect 0, .connect 1, .read 0 (bytes "[\"--help\"]") silent,
    .read 1 (bytes "[\"--help\"]") silent] ++ leaving

/-- The handler that has entered first leaves first, and the stream of the other one stays. -/
theorem stream_stays : ¬ ∀ s, (system plainEnv).Reachable s → (∀ c, (s.phase c).saved = none) →
    s.stdout = .original ∧ s.stderr = .original := by
  intro hall
  have hrun : ((system plainEnv).run .start (twoExits [.delivered 0, .delivered 1])).map
      (fun s => (s.phase 0, s.phase 1, s.stdout)) = some (.ended, .ended, .own 0) := by
    decide +kernel
  obtain ⟨s, hs, heq⟩ := Option.map_eq_some_iff.mp hrun
  obtain ⟨hzero, heq⟩ := Prod.mk.inj heq
  obtain ⟨hone, hstdout⟩ := Prod.mk.inj heq
  have horiginal := (hall s (Lib.System.Reachable.run (.init rfl) hs) fun c =>
    saved_of_idle (idle_of_run hs (by decide) hzero (.inr hone) c)).1
  exact nomatch hstdout.symm.trans horiginal

/-- The one that has entered last leaves first, and everything is as it was. -/
theorem streams_are_restored_nested : ∃ s,
    (system plainEnv).run .start (twoExits [.delivered 1, .delivered 0]) = some s
      ∧ s.stdout = .original ∧ s.stderr = .original := by
  have hrun : ((system plainEnv).runIf (Nested plainEnv) .start
      (twoExits [.delivered 1, .delivered 0])).map (fun s => (s.phase 0, s.phase 1)) =
      some (.ended, .ended) := by
    decide +kernel
  obtain ⟨s, hs, heq⟩ := Option.map_eq_some_iff.mp hrun
  obtain ⟨hzero, hone⟩ := Prod.mk.inj heq
  have hrun' := Lib.System.run_of_runIf hs
  exact ⟨s, hrun', (streams_are_restored (Lib.System.Reach.runIf (.init rfl) hs)).1 fun c =>
    saved_of_idle (idle_of_run hrun' (by decide) hzero (.inr hone) c)⟩

end Holchain.Python
