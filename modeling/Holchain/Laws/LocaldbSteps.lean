import Holchain.Bin.LocaldbSteps
import Holchain.Laws.Localdb

/-!
# Laws.LocaldbSteps — when both entries stay

Nothing in `localdb` keeps two processes apart, so an entry can be lost. What is enough is that the
`second` process reads the file only when the first has ended (`Apart`): then each result is the
object of the one before it with one member set, and the last one has both.
-/

namespace Holchain.Bin.Localdb

open Holper (Bytes lit)

variable {Value : Type*} {jq : Jq} {string : Bytes → Value}
  {read : Bytes → Option (Bytes → Option Value)}

/-- The member of a setting, under the codes that the file has for its texts. -/
def Setting.put (string : Bytes → Value) (setting : Setting) (map : Bytes → Option Value) :
    Bytes → Option Value :=
  Function.update map (urlencode setting.key) (some (string (urlencode setting.value)))

/-- The map at the start: that of the file, and none where there is no file. -/
def initially (read : Bytes → Option (Bytes → Option Value)) :
    Option Bytes → Option (Bytes → Option Value)
  | none => some fun _ => none
  | some db => read db

/-! ## One process -/

/-- A result that a process holds: one line that stands for a map. -/
structure Line (read : Bytes → Option (Bytes → Option Value)) (map : Bytes → Option Value)
    (line : Bytes) : Prop where
  reads : read line = some map
  long : 2 ≤ line.length

theorem Reads.result (hjq : Reads jq string read) {db : Bytes} {map : Bytes → Option Value}
    (h : read db = some map) (setting : Setting) :
    Line read (setting.put string map) (setting.result jq db) := by
  obtain ⟨line, hprinted, hplain, hlong, hline⟩ :=
    hjq.add h (urlencode_literal setting.key) (urlencode_literal setting.value)
  have hresult : setting.result jq db = line := by
    rw [Setting.result, substitute_urlencode, substitute_urlencode, hprinted,
      substitute_line hplain]
  rw [hresult]
  exact ⟨hline, hlong⟩

theorem Line.written {map : Bytes → Option Value} {line : Bytes} (h : Line read map line)
    (hjq : Reads jq string read) : read (line ++ [10]) = some map := by
  rw [hjq.newline, h.reads]

theorem overwrite_short {data content : Bytes} (h : content.length ≤ data.length) :
    overwrite data content = data := by
  rw [overwrite, List.drop_eq_nil_of_le h, List.append_nil]

/-- Writing over a file that has just been emptied. -/
theorem overwrite_empty (data : Bytes) : overwrite data [] = data :=
  overwrite_short (Nat.zero_le data.length)

section Alone

variable {settings : Bool → Setting} {initial : Option Bytes} {s : Shared} {i : Bool}

/-- Steps of a process between which no other one takes a step. -/
theorem run_step {now next : Point} {before after : Option Bytes} {t : Shared} {more : List Bool}
    (hstep : (settings i).step jq before now = some (after, next))
    (hrest : (twoSets jq settings initial).run
      { dbfile := after, point := Function.update s.point i next } more = some t) :
    (twoSets jq settings initial).run
      { dbfile := before, point := Function.update s.point i now } (i :: more) = some t := by
  have hone : (twoSets jq settings initial).step
      { dbfile := before, point := Function.update s.point i now } i =
        some { dbfile := after, point := Function.update s.point i next } := by
    show Option.map _ ((settings i).step jq before (Function.update s.point i now i)) = _
    rw [Function.update_self, hstep, Option.map_some]
    show some (Shared.mk after (Function.update (Function.update s.point i now) i next)) = _
    rw [Function.update_idem]
  rw [Lib.System.run, hone, Option.bind_some, hrest]

/-- **Alone, a process does what `localdb` does.** -/
theorem run_alone (hpoint : s.point i = .begun) :
    ∃ n, (twoSets jq settings initial).run s (List.replicate n i) =
      some { dbfile := some (localdb jq s.dbfile (settings i).key (settings i).value).1,
             point := Function.update s.point i .ended } := by
  have hready (db : Bytes) : (twoSets jq settings initial).run
      { dbfile := some db, point := Function.update s.point i .ready } [i, i, i] =
      some { dbfile := some ((settings i).result jq db ++ [10]),
             point := Function.update s.point i .ended } := by
    apply run_step rfl
    apply run_step rfl
    apply run_step rfl
    show some _ = some _
    rw [Option.getD_some, overwrite_empty]
    rfl
  have hlocaldb : (localdb jq s.dbfile (settings i).key (settings i).value).1 =
      (settings i).result jq (s.dbfile.getD created) ++ [10] := by
    simp only [localdb, if_neg (settings i).keyNonempty, if_neg (settings i).valueNonempty,
      Setting.result]
  obtain ⟨dbfile, point⟩ := s
  have hbegun : Function.update point i .begun = point := by
    rw [← hpoint, Function.update_eq_self]
  suffices h : ∃ n, (twoSets jq settings initial).run
      { dbfile, point := Function.update point i .begun } (List.replicate n i) =
      some { dbfile := some ((settings i).result jq (dbfile.getD created) ++ [10]),
             point := Function.update point i .ended } by
    rw [hlocaldb]
    rwa [hbegun] at h
  cases dbfile with
  | none =>
    refine ⟨6, ?_⟩
    apply run_step (s := { dbfile := none, point }) rfl
    apply run_step (s := { dbfile := none, point }) rfl
    apply run_step (s := { dbfile := none, point }) rfl
    rw [Option.getD_some, overwrite_empty]
    exact hready created
  | some db =>
    refine ⟨4, ?_⟩
    apply run_step (s := { dbfile := none, point }) rfl
    exact hready db

end Alone

/-! ## Two processes, one after the other -/

/-- The process has not read the file, and is making it only where it was missing. -/
def Point.Early (initial : Option Bytes) : Point → Prop
  | .begun | .ready => True
  | .missing | .creating => initial = none
  | _ => False

/-- The file before a result is written: as it was, or being made. -/
def Untouched (initial dbfile : Option Bytes) : Prop :=
  dbfile = initial ∨ initial = none ∧ (dbfile = some [] ∨ dbfile = some created)

/-- **One process reads the file only when the other has ended.** The other one reads a file that
is not empty, and the file is made only before there is a result in it. -/
def Apart (first : Bool) (s : Shared) (i : Bool) : Prop :=
  (i = first → s.point first = .ready → s.dbfile.getD [] ≠ [])
    ∧ (i ≠ first → s.point i = .ready → s.point first = .ended)
    ∧ (i ≠ first → s.point i = .missing ∨ s.point i = .creating → s.point first ≠ .ended)

instance (first : Bool) : DecidableRel (Apart first) := fun _ _ =>
  inferInstanceAs (Decidable (_ ∧ _ ∧ _))

section Stages

variable {initial dbfile : Option Bytes} {map one both : Bytes → Option Value} {p q next : Point}

/-- The file and the two processes, where `one` is the map with the entry of the first process and
`both` that with the two entries. -/
inductive Stage (read : Bytes → Option (Bytes → Option Value)) (initial : Option Bytes)
    (one both : Bytes → Option Value) : Option Bytes → Point → Point → Prop
  | early {dbfile : Option Bytes} {p q : Point} : p.Early initial → q.Early initial →
      Untouched initial dbfile → Stage read initial one both dbfile p q
  | read {dbfile : Option Bytes} {q : Point} {res : Bytes} : Line read one res →
      q.Early initial → Untouched initial dbfile → Stage read initial one both dbfile (.read res) q
  | truncated {dbfile : Option Bytes} {q : Point} {res : Bytes} : Line read one res →
      q.Early initial → dbfile = some [] ∨ dbfile = some created →
      Stage read initial one both dbfile (.truncated res) q
  | ended {q : Point} {res : Bytes} : Line read one res → q.Early initial →
      Stage read initial one both (some (res ++ [10])) .ended q
  | secondRead {res res' : Bytes} : Line read one res → Line read both res' →
      Stage read initial one both (some (res ++ [10])) .ended (.read res')
  | secondTruncated {res' : Bytes} : Line read both res' →
      Stage read initial one both (some []) .ended (.truncated res')
  | secondEnded {res' : Bytes} : Line read both res' →
      Stage read initial one both (some (res' ++ [10])) .ended .ended

/-- A file that is being made is too short to show behind a result. -/
theorem Line.overwrites {line : Bytes} (h : Line read one line)
    (hdbfile : dbfile = some [] ∨ dbfile = some created) :
    overwrite (line ++ [10]) (dbfile.getD []) = line ++ [10] := by
  have hlong := h.long
  apply overwrite_short
  rcases hdbfile with rfl | rfl
  · exact Nat.zero_le _
  · show 3 ≤ (line ++ [10]).length
    rw [List.length_append, List.length_singleton]
    omega

theorem overwrite_created (h : dbfile = none ∨ dbfile = some [] ∨ dbfile = some created) :
    overwrite created (dbfile.getD []) = created := by
  rcases h with rfl | rfl | rfl
  · rfl
  · rfl
  · rfl

/-- A process that has not read the file leaves it untouched. -/
theorem Point.Early.step {setting : Setting} {after : Option Bytes} (h : p.Early initial)
    (hdbfile : Untouched initial dbfile) (hready : p ≠ .ready)
    (hstep : setting.step jq dbfile p = some (after, next)) :
    next.Early initial ∧ Untouched initial after := by
  cases p with
  | begun =>
    cases hstep
    refine ⟨?_, hdbfile⟩
    split
    next hnone =>
      rcases hdbfile with heq | ⟨hinitial, -⟩
      · exact heq.symm.trans hnone
      · exact hinitial
    · trivial
  | missing =>
    cases hstep
    exact ⟨h, .inr ⟨h, .inl rfl⟩⟩
  | creating =>
    cases hstep
    have hmade : dbfile = none ∨ dbfile = some [] ∨ dbfile = some created := by
      rcases hdbfile with heq | ⟨-, hmade⟩
      · exact .inl (heq.trans h)
      · exact .inr hmade
    rw [overwrite_created hmade]
    exact ⟨trivial, .inr ⟨h, .inr rfl⟩⟩
  | ready => exact absurd rfl hready
  | read res => exact h.elim
  | truncated res => exact h.elim
  | ended => exact h.elim

/-- What a process reads before a result is written. -/
theorem Untouched.reads (hjq : Reads jq string read) (hinitial : initially read initial = some map)
    (h : Untouched initial dbfile) (hne : dbfile.getD [] ≠ []) :
    ∃ db, dbfile = some db ∧ read db = some map := by
  rcases h with rfl | ⟨rfl, rfl | rfl⟩
  · cases dbfile with
    | none => exact absurd rfl hne
    | some db => exact ⟨db, rfl, hinitial⟩
  · exact absurd rfl hne
  · exact ⟨created, rfl, hjq.created.trans hinitial⟩

variable {setting : Setting} {after : Option Bytes}

/-- What a process keeps that reads the map, and the result that it has. -/
theorem step_ready (hjq : Reads jq string read) {db : Bytes} (hdb : read db = some map)
    (hstep : setting.step jq (some db) .ready = some (after, next)) :
    after = some db ∧ ∃ res, next = .read res ∧ Line read (setting.put string map) res := by
  cases hstep
  exact ⟨rfl, setting.result jq db, rfl, hjq.result hdb setting⟩

/-- A step of the first process. -/
theorem Stage.first (hjq : Reads jq string read) (hinitial : initially read initial = some map)
    (hone : one = setting.put string map) (h : Stage read initial one both dbfile p q)
    (hready : p = .ready → dbfile.getD [] ≠ [])
    (hstep : setting.step jq dbfile p = some (after, next)) :
    Stage read initial one both after next q := by
  cases h with
  | early hp hq hdbfile =>
    by_cases heq : p = .ready
    · obtain ⟨db, rfl, hdb⟩ := hdbfile.reads hjq hinitial (hready heq)
      rw [heq] at hstep
      obtain ⟨rfl, res, rfl, hres⟩ := step_ready hjq hdb hstep
      exact .read (hone ▸ hres) hq hdbfile
    · obtain ⟨hnext, hafter⟩ := hp.step hdbfile heq hstep
      exact .early hnext hq hafter
  | read hres hq hdbfile =>
    cases hstep
    exact .truncated hres hq (.inl rfl)
  | truncated hres hq hdbfile =>
    cases hstep
    rw [hres.overwrites hdbfile]
    exact .ended hres hq
  | ended hres hq => cases hstep
  | secondRead hres hres' => cases hstep
  | secondTruncated hres' => cases hstep
  | secondEnded hres' => cases hstep

/-- A process that makes the file while the other one has opened it. -/
theorem Point.Early.emptied (h : q.Early initial) (hready : q ≠ .ready)
    (hdbfile : dbfile = some [] ∨ dbfile = some created)
    (hstep : setting.step jq dbfile q = some (after, next)) :
    next.Early initial ∧ (after = some [] ∨ after = some created) := by
  cases q with
  | begun =>
    cases hstep
    rcases hdbfile with rfl | rfl
    · exact ⟨trivial, .inl rfl⟩
    · exact ⟨trivial, .inr rfl⟩
  | missing =>
    cases hstep
    exact ⟨h, .inl rfl⟩
  | creating =>
    cases hstep
    rw [overwrite_created (.inr hdbfile)]
    exact ⟨trivial, .inr rfl⟩
  | ready => exact absurd rfl hready
  | read res => exact h.elim
  | truncated res => exact h.elim
  | ended => exact h.elim

/-- A step of the second process, which reads and makes the file when it may. -/
theorem Stage.second (hjq : Reads jq string read) (hboth : both = setting.put string one)
    (h : Stage read initial one both dbfile p q) (hready : q = .ready → p = .ended)
    (hmake : q = .missing ∨ q = .creating → p ≠ .ended)
    (hstep : setting.step jq dbfile q = some (after, next)) :
    Stage read initial one both after p next := by
  cases h with
  | early hp hq hdbfile =>
    have hne : q ≠ .ready := fun heq => by rw [hready heq] at hp; exact hp
    obtain ⟨hnext, hafter⟩ := hq.step hdbfile hne hstep
    exact .early hp hnext hafter
  | read hres hq hdbfile =>
    have hne : q ≠ .ready := fun heq => nomatch hready heq
    obtain ⟨hnext, hafter⟩ := hq.step hdbfile hne hstep
    exact .read hres hnext hafter
  | truncated hres hq hdbfile =>
    have hne : q ≠ .ready := fun heq => nomatch hready heq
    obtain ⟨hnext, hafter⟩ := hq.emptied hne hdbfile hstep
    exact .truncated hres hnext hafter
  | @ended q res hres hq =>
    cases q with
    | begun =>
      cases hstep
      exact .ended hres trivial
    | missing => exact absurd rfl (hmake (.inl rfl))
    | creating => exact absurd rfl (hmake (.inr rfl))
    | ready =>
      obtain ⟨rfl, res', rfl, hres'⟩ := step_ready hjq (hres.written hjq) hstep
      exact .secondRead hres (hboth ▸ hres')
    | read res => exact hq.elim
    | truncated res => exact hq.elim
    | ended => exact hq.elim
  | secondRead hres hres' =>
    cases hstep
    exact .secondTruncated hres'
  | secondTruncated hres' =>
    cases hstep
    rw [Option.getD_some, overwrite_empty]
    exact .secondEnded hres'
  | secondEnded hres' => cases hstep

end Stages

/-- **Both entries stay** in every run of two processes of which one reads the file only when the
other one has ended. -/
theorem both_entries_stay (hjq : Reads jq string read) (settings : Bool → Setting)
    {initial : Option Bytes} {map : Bytes → Option Value}
    (hinitial : initially read initial = some map) (first : Bool) {s : Shared}
    (h : (twoSets jq settings initial).Reach (Apart first) s) (hended : ∀ i, s.point i = .ended) :
    ∃ db, s.dbfile = some db ∧ read db =
      some ((settings !first).put string ((settings first).put string map)) := by
  have hstage : Stage read initial ((settings first).put string map)
      ((settings !first).put string ((settings first).put string map)) s.dbfile (s.point first)
      (s.point !first) := by
    refine Lib.System.Reach.invariant (I := fun s => Stage read initial
      ((settings first).put string map)
      ((settings !first).put string ((settings first).put string map)) s.dbfile (s.point first)
      (s.point !first)) ?_ ?_ h
    · rintro s rfl
      exact .early trivial trivial (.inl rfl)
    · intro s t i hs hapart hstep
      obtain ⟨⟨after, next⟩, hnext, rfl⟩ := Option.map_eq_some_iff.mp hstep
      obtain ⟨hreads, hwaits, hmakes⟩ := hapart
      by_cases hi : i = first
      · subst hi
        have hne : (!i) ≠ i := Bool.not_ne_self i
        show Stage _ _ _ _ after (Function.update s.point i next i)
          (Function.update s.point i next !i)
        rw [Function.update_self, Function.update_of_ne hne]
        exact hs.first hjq hinitial rfl (hreads rfl) hnext
      · have hother : i = !first := Bool.eq_not_of_ne hi
        subst hother
        show Stage _ _ _ _ after (Function.update s.point (!first) next first)
          (Function.update s.point (!first) next !first)
        rw [Function.update_self, Function.update_of_ne (Ne.symm hi)]
        exact hs.second hjq rfl (hwaits hi) (hmakes hi) hnext
  rw [hended, hended] at hstage
  generalize hdb : s.dbfile = dbfile at hstage
  cases hstage with
  | early hp => exact hp.elim
  | ended hres hq => exact hq.elim
  | secondEnded hres' => exact ⟨_, rfl, hres'.written hjq⟩

/-! ## Two processes that meet -/

/-- `jq` on objects of strings, with nothing to print where there is no value in the input. -/
def fileJq : Jq := fun compact program input =>
  let text := input.rdropWhile (· == 10)
  if text = [] then [] else stringsJq compact program (text ++ [10])

/-- The map of a text that is an object of strings. -/
def readStrings (db : Bytes) : Option (Bytes → Option Bytes) :=
  let text := db.rdropWhile (· == 10)
  let members := readMembers (fields (text ++ [10]))
  if objectText members = text ∧ (members.map (·.1)).Nodup
      ∧ members.all (fun m => m.1.all isLiteral && m.2.all isLiteral) = true
  then some fun key => members.lookup key else none

theorem rdropWhile_text (o : Object) : o.text.rdropWhile (· == 10) = o.text := by
  rw [List.rdropWhile_eq_self_iff]
  intro hne hlast
  exact (text_ne o _ (List.getLast_mem hne)).2 (eq_of_beq hlast)

theorem readStrings_text (o : Object) : readStrings o.text = some fun key => o.members.lookup key := by
  have hliteral : o.members.all (fun m => m.1.all isLiteral && m.2.all isLiteral) = true := by
    rw [List.all_eq_true]
    intro m hm
    rw [Bool.and_eq_true, List.all_eq_true, List.all_eq_true]
    exact o.literal m hm
  simp only [readStrings, rdropWhile_text, readMembers_text]
  exact if_pos ⟨rfl, o.distinct, hliteral⟩

/-- A text that is read is that of an object. -/
theorem readStrings_some {db : Bytes} {map : Bytes → Option Bytes} (h : readStrings db = some map) :
    ∃ o : Object, db.rdropWhile (· == 10) = o.text ∧ map = fun key => o.members.lookup key := by
  obtain ⟨⟨htext, hdistinct, hliteral⟩, hmap⟩ := Option.ite_none_right_eq_some.mp h
  refine ⟨{ members := _, distinct := hdistinct, literal := ?_ }, htext.symm,
    (Option.some.inj hmap).symm⟩
  intro m hm
  have hm' := List.all_eq_true.mp hliteral m hm
  rwa [Bool.and_eq_true, List.all_eq_true, List.all_eq_true] at hm'

theorem text_long (o : Object) : 2 ≤ o.text.length := by
  show 2 ≤ (lit "\x7b" ++ _ ++ lit "\x7d").length
  rw [List.length_append, List.length_append]
  show 2 ≤ 1 + _ + 1
  omega

theorem reads_fileJq : Reads fileJq id readStrings where
  created := readStrings_text
    { members := [], distinct := List.nodup_nil, literal := fun _ hm => absurd hm List.not_mem_nil }
  newline line := by
    have htrim : (line ++ [10]).rdropWhile (· == 10) = line.rdropWhile (· == 10) :=
      List.rdropWhile_concat_pos (· == 10) line 10 rfl
    simp only [readStrings, htrim]
  add {db map} h key value hkey hvalue := by
    obtain ⟨o, htext, rfl⟩ := readStrings_some h
    obtain ⟨o', hjson, hself, hother⟩ := documented_stringsJq.add o hkey hvalue
    have hne : o.text ≠ [] := by
      intro hnil
      have hlong := text_long o
      rw [hnil] at hlong
      exact absurd hlong (by decide)
    refine ⟨o'.text, ?_, text_ne o', text_long o', ?_⟩
    · simp only [fileJq, htext, if_neg hne, hjson]
    · rw [readStrings_text]
      congr 1
      funext other
      by_cases heq : other = key
      · rw [heq, hself, Function.update_self]
        rfl
      · rw [hother other heq, Function.update_of_ne heq]
  empty _ _ := rfl

/-- `localdb a 1` and `localdb b 2`. -/
def twoSettings : Bool → Setting
  | false => { key := ['a'], value := ['1'], keyNonempty := by decide, valueNonempty := by decide }
  | true => { key := ['b'], value := ['2'], keyNonempty := by decide, valueNonempty := by decide }

/-- Where each of them reads the file before the other one writes it, one entry is lost. -/
theorem entry_lost : ¬ ∀ s, (twoSets fileJq twoSettings (some created)).Reachable s →
    (∀ i, s.point i = .ended) → ∃ map, s.dbfile.bind readStrings = some map
      ∧ ∀ i, map (urlencode (twoSettings i).key) = some (urlencode (twoSettings i).value) := by
  intro hall
  have hstart : (twoSets fileJq twoSettings (some created)).Reachable
      { dbfile := some created, point := fun _ => .begun } := .init rfl
  obtain ⟨t, hrun, hended, hmap⟩ : ∃ t, (twoSets fileJq twoSettings (some created)).run
      { dbfile := some created, point := fun _ => .begun }
        [false, true, false, true, false, false, true, true] = some t
      ∧ (∀ i, t.point i = .ended)
      ∧ ∀ map, t.dbfile.bind readStrings = some map → map [97] = none := by
    refine ⟨_, rfl, ?_, ?_⟩
    · rintro (_ | _)
      · rfl
      · rfl
    · intro map hmap
      cases hmap
      rfl
  obtain ⟨map, hmap', hboth⟩ := hall t (hstart.run hrun) hended
  have hlost := hmap map hmap'
  exact absurd ((hboth false).symm.trans hlost) (by decide)

/-- Taken one after the other they leave both. -/
theorem both_entries_stay_settings : ∃ db, readStrings db = some
    ((twoSettings true).put id ((twoSettings false).put id fun _ => none)) := by
  have hstart : (twoSets fileJq twoSettings none).Reach (Apart false)
      { dbfile := none, point := fun _ => .begun } := .init rfl
  obtain ⟨t, hrun, hended⟩ : ∃ t, (twoSets fileJq twoSettings none).runIf (Apart false)
      { dbfile := none, point := fun _ => .begun }
        [true, false, true, true, false, false, false, false, false, true, true, true] = some t
      ∧ ∀ i, t.point i = .ended := by
    refine ⟨_, rfl, ?_⟩
    rintro (_ | _)
    · rfl
    · rfl
  obtain ⟨db, -, hread⟩ := both_entries_stay reads_fileJq twoSettings rfl false
    (hstart.runIf hrun) hended
  exact ⟨db, hread⟩

end Holchain.Bin.Localdb
