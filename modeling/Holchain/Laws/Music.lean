import Holchain.Holper.Music

/-!
# Laws.Music — how often the player is called

Only the answer that there is no such service has a call made again. So what an action returns or
throws is what the first other answer says, among the eleven that a command which starts the player
waits for, and where there is none, what the first call has thrown (`actOn_tries`). The player is
started once at most.
-/

namespace Holchain.Holper.SpotifyAction

/-- The answer is another one than that the player does not run. -/
def Settled (reply : Reply) : Prop :=
  match reply with
  | .done => True
  | .failed name _ _ => name ≠ serviceUnknown

instance : DecidablePred Settled
  | .done => isTrue trivial
  | .failed name _ _ => inferInstanceAs (Decidable (name ≠ serviceUnknown))

/-- What an answer comes to where no call is made again. -/
def outcome (method : Bytes) (reply : Reply) : Except Bytes Json :=
  match call method reply with
  | .ok () => .ok (.string (lit "Success"))
  | .error e => .error e.what

/-- How many calls a command may make. -/
def tries (spawnOnFailure : Bool) : ℕ := if spawnOnFailure then 11 else 1

theorem call_unsettled (method : Bytes) {reply : Reply} (h : ¬ Settled reply) :
    ∃ e, call method reply = .error e ∧ e.errorName = serviceUnknown := by
  cases reply with
  | done => exact absurd trivial h
  | failed name message code => exact ⟨_, rfl, not_not.mp h⟩

theorem call_settled {method : Bytes} {reply : Reply} (h : Settled reply) {e : Thrown}
    (he : call method reply = .error e) : e.errorName ≠ serviceUnknown := by
  cases reply with
  | done => cases he
  | failed name message code =>
    cases he
    exact h

/-- One more call. -/
theorem retry_settled {method : Bytes} {replies : ℕ → Reply} {doing : Doing}
    (h : Settled (replies doing.calls)) (retries : ℕ) :
    retry method replies (retries + 1) doing = (some (call method (replies doing.calls)),
      { doing with calls := doing.calls + 1, slept := doing.slept + sleepInterval }) := by
  rw [retry]
  cases he : call method (replies doing.calls) with
  | ok u => rfl
  | error e => exact if_neg (call_settled h he)

theorem retry_unsettled {method : Bytes} {replies : ℕ → Reply} {doing : Doing}
    (h : ¬ Settled (replies doing.calls)) (retries : ℕ) :
    retry method replies (retries + 1) doing = retry method replies retries
      { doing with calls := doing.calls + 1, slept := doing.slept + sleepInterval } := by
  obtain ⟨e, he, hname⟩ := call_unsettled method h
  rw [retry, he]
  exact if_pos hname

theorem range'_find?_settled {replies : ℕ → Reply} {start : ℕ} (h : Settled (replies start))
    (n : ℕ) : (List.range' start (n + 1)).find? (fun i => Settled (replies i)) = some start := by
  rw [List.range'_succ]
  exact List.find?_cons_of_pos (decide_eq_true h)

theorem range'_find?_unsettled {replies : ℕ → Reply} {start : ℕ} (h : ¬ Settled (replies start))
    (n : ℕ) : (List.range' start (n + 1)).find? (fun i => Settled (replies i))
      = (List.range' (start + 1) n).find? fun i => Settled (replies i) := by
  rw [List.range'_succ]
  refine List.find?_cons_of_neg ?_
  rw [decide_eq_false h]
  exact Bool.false_ne_true

/-- The loop ends with the first answer of another kind. -/
theorem retry_some (method : Bytes) (replies : ℕ → Reply) {retries : ℕ} (doing : Doing) {i : ℕ}
    (h : (List.range' doing.calls retries).find? (fun i => Settled (replies i)) = some i) :
    doing.calls ≤ i ∧ retry method replies retries doing = (some (call method (replies i)),
      { doing with calls := i + 1, slept := doing.slept + (i + 1 - doing.calls) * sleepInterval }) := by
  induction retries generalizing doing with
  | zero => cases h
  | succ retries ih =>
    by_cases hfirst : Settled (replies doing.calls)
    · rw [range'_find?_settled hfirst] at h
      cases h
      rw [retry_settled hfirst, Nat.add_sub_cancel_left, Nat.one_mul]
      exact ⟨Nat.le_refl _, rfl⟩
    · rw [range'_find?_unsettled hfirst] at h
      obtain ⟨hle, hretry⟩ := ih
        { doing with calls := doing.calls + 1, slept := doing.slept + sleepInterval } h
      dsimp only at hle hretry
      refine ⟨by omega, ?_⟩
      rw [retry_unsettled hfirst, hretry]
      have hslept : doing.slept + sleepInterval + (i + 1 - (doing.calls + 1)) * sleepInterval
          = doing.slept + (i + 1 - doing.calls) * sleepInterval := by
        have hcount : i + 1 - doing.calls = i + 1 - (doing.calls + 1) + 1 := by omega
        rw [hcount, Nat.succ_mul]
        omega
      rw [hslept]

/-- Otherwise its calls are used up. -/
theorem retry_none (method : Bytes) (replies : ℕ → Reply) {retries : ℕ} (doing : Doing)
    (h : (List.range' doing.calls retries).find? (fun i => Settled (replies i)) = none) :
    retry method replies retries doing = (none,
      { doing with calls := doing.calls + retries, slept := doing.slept + retries * sleepInterval }) := by
  induction retries generalizing doing with
  | zero =>
    rw [retry, Nat.zero_mul]
    rfl
  | succ retries ih =>
    by_cases hfirst : Settled (replies doing.calls)
    · rw [range'_find?_settled hfirst] at h
      cases h
    · rw [range'_find?_unsettled hfirst] at h
      have hretry := ih
        { doing with calls := doing.calls + 1, slept := doing.slept + sleepInterval } h
      rw [retry_unsettled hfirst, hretry]
      have hcalls : doing.calls + 1 + retries = doing.calls + (retries + 1) := by omega
      have hslept : doing.slept + sleepInterval + retries * sleepInterval
          = doing.slept + (retries + 1) * sleepInterval := by
        rw [Nat.succ_mul]
        omega
      dsimp only
      rw [hcalls, hslept]

/-- Where the first call is the last one. -/
theorem actOn_once (method : Bytes) {spawnOnFailure : Bool} {replies : ℕ → Reply}
    (h : spawnOnFailure = false ∨ Settled (replies 0)) :
    actOn method spawnOnFailure (.ok ()) replies
      = (outcome method (replies 0), { calls := 1 }) := by
  rw [actOn, outcome]
  cases he : call method (replies 0) with
  | ok u => rfl
  | error e => exact if_pos (h.imp_right fun hsettled => call_settled hsettled he)

/-- Where the player is started. -/
theorem actOn_spawns (method : Bytes) {replies : ℕ → Reply} (h : ¬ Settled (replies 0)) :
    ∃ e : Thrown, outcome method (replies 0) = .error e.what
      ∧ ∀ ended doing, retry method replies 10 { calls := 1, spawned := [kSpotifyLocation] }
        = (ended, doing) → actOn method true (.ok ()) replies = (e.answer ended, doing) := by
  obtain ⟨e, he, hname⟩ := call_unsettled method h
  refine ⟨e, by rw [outcome, he], fun ended doing hretry => ?_⟩
  have hspawns : ¬ (true = false ∨ e.errorName ≠ serviceUnknown) := by
    rintro (hfalse | hne)
    · cases hfalse
    · exact hne hname
  rw [actOn, he]
  dsimp only
  rw [if_neg hspawns, hretry]

/-- **How often the player is called**, whatever the bus answers. A command that does not start it
makes one call, another one at most eleven, a tenth of a second apart, and starts it once at most.
The first answer but that there is no such service is what the command returns or throws; where there
is none, it throws what its first call has thrown. -/
theorem actOn_tries (method : Bytes) (spawnOnFailure : Bool) (replies : ℕ → Reply) :
    let settled := (List.range' 0 (tries spawnOnFailure)).find? fun i => Settled (replies i)
    let calls := (settled.map (· + 1)).getD (tries spawnOnFailure)
    actOn method spawnOnFailure (.ok ()) replies = (outcome method (replies (settled.getD 0)), {
      calls
      spawned := if calls = 1 then [] else [kSpotifyLocation]
      slept := (calls - 1) * sleepInterval }) := by
  by_cases hfirst : Settled (replies 0)
  · have hsettled : (List.range' 0 (tries spawnOnFailure)).find? (fun i => Settled (replies i))
        = some 0 := by
      cases spawnOnFailure with
      | false => exact range'_find?_settled hfirst 0
      | true => exact range'_find?_settled hfirst 10
    dsimp only
    rw [hsettled, actOn_once method (.inr hfirst), Option.map_some, Option.getD_some,
      Option.getD_some, if_pos rfl, Nat.sub_self, Nat.zero_mul]
  · cases spawnOnFailure with
    | false =>
      have hsettled : (List.range' 0 (tries false)).find? (fun i => Settled (replies i)) = none :=
        range'_find?_unsettled hfirst 0
      have hone : tries false = 1 := rfl
      dsimp only
      rw [hsettled, actOn_once method (.inl rfl), Option.map_none, Option.getD_none,
        Option.getD_none, hone, if_pos rfl, Nat.sub_self, Nat.zero_mul]
    | true =>
      have hmore : (List.range' 0 (tries true)).find? (fun i => Settled (replies i))
          = (List.range' 1 10).find? fun i => Settled (replies i) :=
        range'_find?_unsettled hfirst 10
      have heleven : tries true = 11 := rfl
      obtain ⟨e, hwhat, hacts⟩ := actOn_spawns method hfirst
      dsimp only
      rw [hmore]
      cases hsettled : (List.range' 1 10).find? fun i => Settled (replies i) with
      | some i =>
        obtain ⟨hle, hretry⟩ := retry_some method replies
          { calls := 1, spawned := [kSpotifyLocation] } hsettled
        have hagain : ¬ i + 1 = 1 := by
          have hle : 1 ≤ i := hle
          omega
        have hanswer : e.answer (some (call method (replies i))) = outcome method (replies i) := by
          rw [outcome]
          cases call method (replies i) with
          | ok u => rfl
          | error e' => rfl
        rw [hacts _ _ hretry, hanswer, Option.map_some, Option.getD_some, Option.getD_some,
          if_neg hagain, Nat.zero_add]
      | none =>
        have hretry := retry_none method replies
          { calls := 1, spawned := [kSpotifyLocation] } hsettled
        rw [hacts _ _ hretry, Option.map_none, Option.getD_none, Option.getD_none, heleven, hwhat,
          if_neg (by decide), Nat.zero_add]
        rfl

end Holchain.Holper.SpotifyAction
