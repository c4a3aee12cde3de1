import Holchain.Holper.Logger
import Holchain.Lib.RingBuffer

/-!
# Laws.Logger — the last messages

The target is a ring of cells that are empty at first (`ofRing`), and a write pushes to it. As long
as fewer messages were written than there are cells, the next cell is the one behind the messages;
else the ring is full. So a read returns the last messages (`getLogs_exact`).
-/

namespace Holchain.Holper.InMemoryLogTarget

open Lib (RingBuffer)

/-! ## The target as a ring -/

/-- The target with these cells, after that many messages. -/
def ofRing (r : RingBuffer Bytes) (count : ℕ) : InMemoryLogTarget :=
  ⟨r.cells, .ofNat r.index, .ofNat count⟩

variable {r : RingBuffer Bytes} {count : ℕ}

theorem toNat_index (hsize : r.cells.length < 2 ^ 64) : (UInt64.ofNat r.index).toNat = r.index :=
  UInt64.toNat_ofNat_of_lt' (lt_trans r.index_lt hsize)

theorem index_push (hsize : r.cells.length < 2 ^ 64) (message : Bytes) :
    (UInt64.ofNat r.index + 1) % UInt64.ofNat r.cells.length =
      UInt64.ofNat (r.push message).index := by
  have hlt := r.index_lt
  have hmod : (r.index + 1) % r.cells.length ≤ r.index + 1 := Nat.mod_le _ _
  apply UInt64.toNat_inj.mp
  have hsucc : UInt64.ofNat r.index + 1 = UInt64.ofNat (r.index + 1) :=
    (UInt64.ofNat_add r.index 1).symm
  rw [hsucc, UInt64.toNat_mod, UInt64.toNat_ofNat_of_lt' (show r.index + 1 < 2 ^ 64 by omega),
    UInt64.toNat_ofNat_of_lt' hsize]
  exact (UInt64.toNat_ofNat_of_lt' (show (r.index + 1) % r.cells.length < 2 ^ 64 by omega)).symm

/-- **A write pushes the message.** -/
theorem write_ofRing (hsize : r.cells.length < 2 ^ 64) (message : Bytes) :
    (write message).run (ofRing r count) = some ((), ofRing (r.push message) (count + 1)) := by
  have hguard : (ofRing r count).index.toNat < (ofRing r count).logs.length := by
    rw [ofRing, toNat_index hsize]
    exact r.index_lt
  have hset : (⟨r.cells.set (UInt64.ofNat r.index).toNat message,
      (UInt64.ofNat r.index + 1) % UInt64.ofNat r.cells.length, UInt64.ofNat count + 1⟩ :
        InMemoryLogTarget) = ofRing (r.push message) (count + 1) := by
    rw [toNat_index hsize, index_push hsize message, ofRing, UInt64.ofNat_add]
    rfl
  unfold write
  simp only [StateT.run_bind, StateT.run_get, Option.pure_def, Option.bind_eq_bind,
    Option.bind_some, guard, if_pos hguard]
  exact congrArg (fun target => some ((), target)) hset

/-! ## A read -/

/-- The cells from one on. -/
theorem mapM_subscript (cells : List Bytes) (target : InMemoryLogTarget) {i k : ℕ}
    (h : i + k ≤ cells.length) :
    ((List.range' i k).mapM (subscript cells)).run target =
      some ((cells.drop i).take k, target) := by
  induction k generalizing i with
  | zero => rfl
  | succ k ih =>
    have hlt : i < cells.length := by omega
    have hfirst : (subscript cells i).run target = some (cells[i], target) := by
      show (cells[i]?.bind fun message => some (message, target)) = _
      rw [List.getElem?_eq_getElem hlt]
      rfl
    have hrest := ih (i := i + 1) (by omega)
    rw [List.range'_succ, List.mapM_cons, StateT.run_bind, hfirst, Option.bind_eq_bind,
      Option.bind_some, StateT.run_bind, hrest, List.drop_eq_getElem_cons hlt,
      List.take_succ_cons]
    rfl

/-- **A read** has the whole ring if it is full, and else the cells before the next one. -/
theorem getLogs_ofRing (hsize : r.cells.length < 2 ^ 64) (hcount : count < 2 ^ 64) :
    getLogs.run (ofRing r count) = some
      (if r.index < count then r.view else r.cells.take r.index, ofRing r count) := by
  have hlt := r.index_lt
  have hindex := toNat_index hsize
  have hfirst := mapM_subscript r.cells (ofRing r count) (i := r.index)
    (k := r.cells.length - r.index) (by omega)
  have hsecond := mapM_subscript r.cells (ofRing r count) (i := 0) (k := r.index) (by omega)
  have hcompare : (UInt64.ofNat r.index < UInt64.ofNat count) ↔ r.index < count := by
    rw [UInt64.lt_iff_toNat_lt, hindex, UInt64.toNat_ofNat_of_lt' hcount]
  rw [List.take_of_length_le (by rw [List.length_drop])] at hfirst
  rw [List.drop_zero] at hsecond
  unfold getLogs
  rw [StateT.run_bind, StateT.run_get, Option.pure_def, Option.bind_eq_bind, Option.bind_some]
  simp only [ofRing] at hfirst hsecond ⊢
  by_cases hfull : r.index < count
  · simp only [if_pos hfull, if_pos (hcompare.mpr hfull), hindex, StateT.run_bind, hfirst, hsecond,
      Option.bind_eq_bind, Option.bind_some, RingBuffer.view_eq]
    rfl
  · simp only [if_neg hfull, if_neg (hcompare.not.mpr hfull), hindex, StateT.run_bind, hsecond,
      Option.bind_eq_bind, Option.bind_some]
    rfl

/-! ## Runs -/

/-- The messages of the writes, in order. -/
def writes : List Operation → List Bytes
  | [] => []
  | .write message :: ops => message :: writes ops
  | .getLogs :: ops => writes ops

/-- One operation after another. -/
def performs (ops : List Operation) : Method Unit := ops.forM perform

/-- **A run pushes the messages of its writes**, whatever is read in between. -/
theorem performs_ofRing (hsize : r.cells.length < 2 ^ 64) (ops : List Operation)
    (hcount : count + (writes ops).length < 2 ^ 64) : (performs ops).run (ofRing r count) =
      some ((), ofRing (r.pushes (writes ops)) (count + (writes ops).length)) := by
  induction ops generalizing r count with
  | nil => rfl
  | cons op ops ih =>
    have hcons : performs (op :: ops) = perform op >>= fun _ => performs ops := rfl
    rw [hcons, StateT.run_bind]
    cases op with
    | write message =>
      have hlength : (r.push message).cells.length < 2 ^ 64 := by rwa [RingBuffer.length_push]
      have hmore : (writes (.write message :: ops)).length = (writes ops).length + 1 := rfl
      rw [hmore] at hcount ⊢
      have hrun : (perform (.write message)).run (ofRing r count) =
          some ((), ofRing (r.push message) (count + 1)) := write_ofRing hsize message
      have hadd : count + ((writes ops).length + 1) = count + 1 + (writes ops).length := by omega
      rw [hrun, hadd]
      exact ih hlength (by omega)
    | getLogs =>
      have hless : count < 2 ^ 64 := by omega
      have hrun : (perform .getLogs).run (ofRing r count) = some ((), ofRing r count) := by
        simp only [perform, StateT.run_bind, getLogs_ofRing hsize hless]
        rfl
      rw [hrun]
      exact ih hsize hcount

/-- The empty cells of a new target. -/
def empty (n : ℕ) (hpos : 0 < n) : RingBuffer Bytes where
  cells := List.replicate n []
  index := 0
  index_lt := by rwa [List.length_replicate]

theorem length_empty {n : ℕ} (hpos : 0 < n) (history : List Bytes) :
    ((empty n hpos).pushes history).cells.length = n :=
  ((empty n hpos).length_pushes history).trans List.length_replicate

theorem index_empty {n : ℕ} (hpos : 0 < n) (history : List Bytes) :
    ((empty n hpos).pushes history).index = history.length % n := by
  have hindex := (empty n hpos).index_pushes history
  have hcells : (empty n hpos).cells.length = n := List.length_replicate
  have hzero : (empty n hpos).index = 0 := rfl
  rwa [hcells, hzero, Nat.zero_add] at hindex

/-- The last cells of the ring have the messages, behind the cells that are still empty. -/
theorem view_empty {n : ℕ} (hpos : 0 < n) (history : List Bytes) :
    ((empty n hpos).pushes history).view =
      (empty n hpos).view.drop history.length ++ history.drop (history.length - n) := by
  have hview := (empty n hpos).view_pushes history
  have hcells : (empty n hpos).cells.length = n := List.length_replicate
  have hempty : (empty n hpos).view.length = n := (empty n hpos).length_view.trans hcells
  rw [hview, List.rtake, List.drop_append, hcells, List.length_append, hempty,
    Nat.add_sub_cancel_left]

/-- **What a read returns of the ring** are the last messages. -/
theorem last_messages {n : ℕ} (hpos : 0 < n) (history : List Bytes) {r : RingBuffer Bytes}
    (hr : r = (empty n hpos).pushes history) :
    (if r.index < history.length then r.view else r.cells.take r.index) =
      history.drop (history.length - n) := by
  have hview := view_empty hpos history
  have hindex := index_empty hpos history
  have hlength := length_empty hpos history
  have hempty : (empty n hpos).view.length = n :=
    (empty n hpos).length_view.trans List.length_replicate
  rw [← hr] at hview hindex hlength
  rw [hindex]
  rcases Nat.lt_or_ge history.length n with hfew | hmany
  · have hmod : history.length % n = history.length := Nat.mod_eq_of_lt hfew
    rw [RingBuffer.view_eq, hindex, hmod] at hview
    rw [hmod, if_neg (lt_irrefl _)]
    have hsame : (r.cells.take history.length).length =
        (history.drop (history.length - n)).length := by
      rw [List.length_take, List.length_drop, hlength]
      omega
    exact List.append_inj_right' hview hsame
  · have hlt : history.length % n < history.length := by
      have := Nat.mod_lt history.length hpos
      omega
    rw [if_pos hlt, hview, List.drop_of_length_le (by omega), List.nil_append]

/-- **A read returns the last messages**, whatever was read before, and changes nothing. -/
theorem getLogs_exact (n : UInt64) (hpos : 1 ≤ n) (ops : List Operation)
    (hcount : (writes ops).length < 2 ^ 64) : ∃ target,
    (performs ops).run (new n) = some ((), target)
      ∧ getLogs.run target = some
          ((writes ops).drop ((writes ops).length - min n.toNat (writes ops).length), target) := by
  have hn : 0 < n.toNat := hpos
  have hcells : (empty n.toNat hn).cells.length < 2 ^ 64 := by
    rw [show (empty n.toNat hn).cells.length = n.toNat from List.length_replicate]
    exact n.toNat_lt
  have hnew : new n = ofRing (empty n.toNat hn) 0 := rfl
  have hrun := performs_ofRing hcells ops (show 0 + (writes ops).length < 2 ^ 64 by omega)
  have hsize : ((empty n.toNat hn).pushes (writes ops)).cells.length < 2 ^ 64 := by
    rwa [RingBuffer.length_pushes]
  rw [Nat.zero_add] at hrun
  refine ⟨_, hnew ▸ hrun, ?_⟩
  have hdrop : (writes ops).length - n.toNat =
      (writes ops).length - min n.toNat (writes ops).length := by omega
  rw [getLogs_ofRing hsize hcount, last_messages hn (writes ops) rfl, hdrop]

/-- Two cells, and the last two of three messages. -/
theorem getLogs_exact_three : ∃ target,
    (performs [.write (lit "a"), .write (lit "b"), .getLogs, .write (lit "c")]).run (new 2) =
        some ((), target)
      ∧ getLogs.run target = some ([lit "b", lit "c"], target) :=
  getLogs_exact 2 (by decide) [.write (lit "a"), .write (lit "b"), .getLogs, .write (lit "c")]
    (by decide)

end Holchain.Holper.InMemoryLogTarget
