import Holchain.French.Conjugate
import Holchain.Lib.JsonLaws

/-!
# Laws.Jsontomysql — the index of the forms

After some words, and some forms of the next one, the tables are `Indexed` by what was gone through:
each value that is no `'NA'` and not empty has a row with its word, and each row has such a value.
A word is committed with all of its values (`committed_index`), so that the two tables are inverses
of each other wherever the process dies.
-/

namespace Holchain.French

open Lib (Str Json Floats Program Db text)
open Lib.Program (Ensures)

variable {F : Type} {floats : Floats F} {server : Server F}

/-! ## What gets a row -/

/-- The values of a list that are not skipped. -/
def kept (floats : Floats F) (invwords : List (Json F)) : List (Json F) :=
  invwords.filter fun v => !skips floats v

/-- The values of a tense that get a row. -/
def tenseValues (floats : Floats F) (v : Json F) : List (Json F) :=
  if v.truthy floats then kept floats (v.elements.getD []) else []

/-- The values of a word that get a row. -/
def recordable (floats : Floats F) : Json F → List (Json F)
  | .obj forms => forms.flatMap fun m => tenseValues floats m.2
  | _ => []

/-! ## What the tables have -/

/-- Rows of a word for its values. -/
structure Covers (server : Server F) (values : List (Json F)) (rows : List Str) : Prop where
  nodup : rows.Nodup
  sound : ∀ s ∈ rows, ∃ v ∈ values, server.stored v = some s
  complete : ∀ v ∈ values, ∃ s ∈ rows, server.stored v = some s ∨ server.equals s v = some true

/-- A word that was inserted, and its values that were gone through. -/
structure Entry (F : Type) where
  word : Str
  forms : Json F
  values : List (Json F)

/-- The tables of some words. -/
structure Indexed (floats : Floats F) (server : Server F) (entries : List (Entry F)) (t : Tables) :
    Prop where
  words : t.words = entries.map fun e => (e.word, Json.dumps floats none false e.forms)
  distinct : (entries.map (·.word)).Nodup
  known : ∀ r ∈ t.invwords, r.2 ∈ entries.map (·.word)
  covers : ∀ e ∈ entries, Covers server e.values (t.formsOf e.word)

/-- A word with all of its values. -/
def entry (floats : Floats F) (m : Str × Json F) : Entry F :=
  ⟨m.1, m.2, recordable floats m.2⟩

/-- What is committed: the words of the file up to some word, with all of their values. -/
def Committed (floats : Floats F) (server : Server F) (data : List (Str × Json F)) (t : Tables) :
    Prop :=
  ∃ before, before <+: data ∧ Indexed floats server (before.map (entry floats)) t

theorem indexed_empty : Indexed floats server [] .empty where
  words := rfl
  distinct := .nil
  known _ hr := nomatch hr
  covers _ he := nomatch he

/-! ## Statements -/

section Any

variable {p : Str → Option Bool} {xs : List Str}

theorem anyM_true (h : xs.anyM p = some true) : ∃ x ∈ xs, p x = some true := by
  induction xs with
  | nil => cases h
  | cons x xs ih =>
    obtain ⟨answer, hx, h⟩ := Option.bind_eq_some_iff.mp h
    cases answer with
    | true => exact ⟨x, List.mem_cons_self, hx⟩
    | false =>
      obtain ⟨y, hy, hp⟩ := ih h
      exact ⟨y, List.mem_cons_of_mem x hy, hp⟩

theorem anyM_false (h : xs.anyM p = some false) : ∀ x ∈ xs, p x = some false := by
  induction xs with
  | nil => exact fun x hx => nomatch hx
  | cons x xs ih =>
    obtain ⟨answer, hx, h⟩ := Option.bind_eq_some_iff.mp h
    cases answer with
    | true => cases h
    | false => exact List.forall_mem_cons.mpr ⟨hx, ih h⟩

theorem anyM_none (h : xs.anyM p = none) : ∃ x ∈ xs, p x = none := by
  induction xs with
  | nil => cases h
  | cons x xs ih =>
    cases hx : p x with
    | none => exact ⟨x, List.mem_cons_self, hx⟩
    | some answer =>
      cases answer with
      | true => simp only [List.anyM, hx, Option.bind_eq_bind, Option.bind_some, Option.pure_def,
          reduceCtorEq] at h
      | false =>
        simp only [List.anyM, hx, Option.bind_eq_bind, Option.bind_some] at h
        obtain ⟨y, hy, hp⟩ := ih h
        exact ⟨y, List.mem_cons_of_mem x hy, hp⟩

end Any

theorem equals_stored {v : Json F} {s : Str} (h : server.stored v = some s) :
    server.equals s v ≠ some false := by
  cases v with
  | str t =>
    obtain ⟨-, heq⟩ := Option.ite_none_right_eq_some.mp h
    cases heq
    rw [Server.equals, beq_self_eq_true]
    exact fun hfalse => nomatch hfalse
  | _ => exact server.equal_converted _ _ h

theorem formsOf_insert (t : Tables) (s word word' : Str) :
    Tables.formsOf { t with invwords := t.invwords ++ [(s, word)] } word' =
      t.formsOf word' ++ if word = word' then [s] else [] := by
  by_cases h : word = word'
  · simp [Tables.formsOf, h]
  · simp [Tables.formsOf, h]

/-! ### One form -/

theorem Covers.append {values : List (Json F)} {rows : List Str} (h : Covers server values rows)
    {v : Json F} (hv : ∃ s ∈ rows, server.stored v = some s ∨ server.equals s v = some true) :
    Covers server (values ++ [v]) rows where
  nodup := h.nodup
  sound s hs := by
    obtain ⟨w, hw, hstored⟩ := h.sound s hs
    exact ⟨w, List.mem_append_left _ hw, hstored⟩
  complete w hw := by
    rcases List.mem_append.mp hw with hw | hw
    · exact h.complete w hw
    · rw [List.mem_singleton.mp hw]
      exact hv

theorem Covers.insert {values : List (Json F)} {rows : List Str} (h : Covers server values rows)
    {v : Json F} {s : Str} (hstored : server.stored v = some s)
    (hnew : ∀ s ∈ rows, server.equals s v = some false) :
    Covers server (values ++ [v]) (rows ++ [s]) where
  nodup := by
    rw [← List.concat_eq_append]
    exact List.Nodup.concat (fun hs => equals_stored hstored (hnew s hs)) h.nodup
  sound s' hs' := by
    rcases List.mem_append.mp hs' with hs' | hs'
    · obtain ⟨w, hw, hw'⟩ := h.sound s' hs'
      exact ⟨w, List.mem_append_left _ hw, hw'⟩
    · rw [List.mem_singleton.mp hs']
      exact ⟨v, List.mem_append_right _ (List.mem_singleton_self v), hstored⟩
  complete w hw := by
    rcases List.mem_append.mp hw with hw | hw
    · obtain ⟨s', hs', hcase⟩ := h.complete w hw
      exact ⟨s', List.mem_append_left _ hs', hcase⟩
    · rw [List.mem_singleton.mp hw]
      exact ⟨s, List.mem_append_right _ (List.mem_singleton_self s), .inl hstored⟩

variable {entries : List (Entry F)} {word : Str} {forms : Json F} {values : List (Json F)}
  {t : Tables}

/-- The last word has one value more. -/
theorem Indexed.last (h : Indexed floats server (entries ++ [⟨word, forms, values⟩]) t)
    {values' : List (Json F)} (hcovers : Covers server values' (t.formsOf word)) :
    Indexed floats server (entries ++ [⟨word, forms, values'⟩]) t where
  words := by
    rw [h.words, List.map_append, List.map_append]
    rfl
  distinct := by
    have hdistinct := h.distinct
    rw [List.map_append] at hdistinct ⊢
    exact hdistinct
  known r hr := by
    have hknown := h.known r hr
    rw [List.map_append] at hknown ⊢
    exact hknown
  covers e he := by
    rcases List.mem_append.mp he with he | he
    · exact h.covers e (List.mem_append_left _ he)
    · rw [List.mem_singleton.mp he]
      exact hcovers

/-- A row of the last word is not seen in the others. -/
theorem Indexed.insert (h : Indexed floats server (entries ++ [⟨word, forms, values⟩]) t)
    {v : Json F} {s : Str} (hstored : server.stored v = some s)
    (hnew : ∀ s ∈ t.formsOf word, server.equals s v = some false) :
    Indexed floats server (entries ++ [⟨word, forms, values ++ [v]⟩])
      { t with invwords := t.invwords ++ [(s, word)] } where
  words := by
    rw [h.words, List.map_append, List.map_append]
    rfl
  distinct := by
    have hdistinct := h.distinct
    rw [List.map_append] at hdistinct ⊢
    exact hdistinct
  known r hr := by
    rw [List.map_append]
    rcases List.mem_append.mp hr with hr | hr
    · have hknown := h.known r hr
      rw [List.map_append] at hknown
      exact hknown
    · rw [List.mem_singleton.mp hr]
      exact List.mem_append_right _ (List.mem_singleton_self word)
  covers e he := by
    rw [formsOf_insert]
    rcases List.mem_append.mp he with he | he
    · have hdistinct := h.distinct
      rw [List.map_append] at hdistinct
      have hne : word ≠ e.word := fun heq =>
        (List.nodup_append.mp hdistinct).2.2 e.word (List.mem_map_of_mem he) word
          (List.mem_singleton_self word) heq.symm
      rw [if_neg hne, List.append_nil]
      exact h.covers e (List.mem_append_left _ he)
    · rw [List.mem_singleton.mp he, if_pos rfl]
      exact (h.covers _ (List.mem_append_right _ (List.mem_singleton_self _))).insert hstored hnew

/-! ## What the program ensures -/

variable {I : Tables → Prop} {E : Prop}

/-- What may not be refused where nothing is: a string that the columns have room for. -/
def Storable (server : Server F) (v : Json F) : Prop := ∃ s, v = .str s ∧ server.storesWord s = true

theorem Storable.stored {v : Json F} (h : Storable server v) : ∃ s, server.stored v = some s := by
  obtain ⟨s, rfl, hs⟩ := h
  exact ⟨s, if_pos hs⟩

theorem Storable.equals {v : Json F} (h : Storable server v) (s : Str) :
    server.equals s v ≠ none := by
  obtain ⟨t, rfl, -⟩ := h
  exact fun hnone => nomatch hnone

theorem kept_singleton (v : Json F) : kept floats [v] = if skips floats v then [] else [v] := by
  rw [kept, List.filter_cons]
  cases skips floats v with
  | true => rfl
  | false => rfl

theorem convertForm_ensures {v : Json F} {db : Db Tables}
    (h : Indexed floats server (entries ++ [⟨word, forms, values⟩]) db.working)
    (hE : ¬ E → skips floats v = false → Storable server v) :
    Ensures I E
      (fun db => Indexed floats server (entries ++ [⟨word, forms, values ++ kept floats [v]⟩])
        db.working)
      (convertForm floats server word v) db := by
  rw [kept_singleton, convertForm]
  cases hskips : skips floats v with
  | true =>
    rw [if_pos rfl, if_pos rfl, List.append_nil]
    exact h
  | false =>
    rw [if_neg Bool.false_ne_true, if_neg Bool.false_ne_true]
    have hcovers := h.covers _ (List.mem_append_right _ (List.mem_singleton_self _))
    unfold Ensures
    cases hselect : selectInvword server word v db.working with
    | none =>
      by_contra hnot
      obtain ⟨s, -, hs⟩ := anyM_none hselect
      exact (hE hnot hskips).equals s hs
    | some found =>
      cases found with
      | true =>
        obtain ⟨s, hs, hequal⟩ := anyM_true hselect
        exact h.last (hcovers.append ⟨s, hs, .inr hequal⟩)
      | false =>
        dsimp only
        rw [if_neg Bool.false_ne_true]
        unfold Ensures
        cases hstored : server.stored v with
        | none =>
          rw [insertInvword, hstored]
          by_contra hnot
          obtain ⟨s, hs⟩ := (hE hnot hskips).stored
          rw [hs] at hstored
          cases hstored
        | some s =>
          rw [insertInvword, hstored]
          exact h.insert hstored (anyM_false hselect)

/-- A tense that is not refused. -/
def LoadsTense (floats : Floats F) (server : Server F) (v : Json F) : Prop :=
  v.truthy floats = true → ∃ invwords, v.elements = some invwords
    ∧ ∀ x ∈ invwords, skips floats x = false → Storable server x

/-- Forms that are not refused. -/
def LoadsForms (floats : Floats F) (server : Server F) (forms : Json F) : Prop :=
  ∃ tenses, forms = .obj tenses ∧ ∀ m ∈ tenses, LoadsTense floats server m.2

/-- A word that is not refused. -/
structure LoadsWord (floats : Floats F) (server : Server F) (m : Str × Json F) : Prop where
  word : server.storesWord m.1 = true
  data : server.storesData (Json.dumps floats none false m.2) = true
  forms : LoadsForms floats server m.2

theorem convertTense_ensures {v : Json F} {db : Db Tables}
    (h : Indexed floats server (entries ++ [⟨word, forms, values⟩]) db.working)
    (hE : ¬ E → LoadsTense floats server v) :
    Ensures I E
      (fun db => Indexed floats server (entries ++ [⟨word, forms, values ++ tenseValues floats v⟩])
        db.working)
      (convertTense floats server word v) db := by
  unfold convertTense tenseValues
  cases htruthy : v.truthy floats with
  | false =>
    rw [if_neg Bool.false_ne_true, if_neg Bool.false_ne_true, List.append_nil]
    exact h
  | true =>
    rw [if_pos rfl, if_pos rfl]
    cases helements : v.elements with
    | none =>
      by_contra hnot
      obtain ⟨invwords, hsome, -⟩ := hE hnot htruthy
      rw [helements] at hsome
      cases hsome
    | some invwords =>
      -- the invariant: the values of the list that are behind are in the tables
      refine Ensures.forEach (fun before db => Indexed floats server
        (entries ++ [⟨word, forms, values ++ kept floats before⟩]) db.working) ?_ ?_
      · intro before x after db heq hbefore
        have hstorable (hnot : ¬ E) (hskips : skips floats x = false) : Storable server x := by
          obtain ⟨invwords', hsome, hall⟩ := hE hnot htruthy
          have hmem : x ∈ before ++ x :: after := List.mem_append_right _ List.mem_cons_self
          rw [← heq, Option.some.inj (helements.symm.trans hsome)] at hmem
          exact hall x hmem hskips
        have hform := convertForm_ensures (I := I) hbefore hstorable
        rw [List.append_assoc] at hform
        rw [kept, List.filter_append]
        exact hform
      · rw [kept, List.filter_nil, List.append_nil]
        exact h

theorem convertForms_ensures {db : Db Tables}
    (h : Indexed floats server (entries ++ [⟨word, forms, []⟩]) db.working)
    (hE : ¬ E → LoadsForms floats server forms) :
    Ensures I E
      (fun db => Indexed floats server (entries ++ [entry floats (word, forms)]) db.working)
      (convertForms floats server word forms) db := by
  cases forms with
  | obj tenses =>
    refine Ensures.forEach (fun (before : List (Str × Json F)) db => Indexed floats server
      (entries ++ [⟨word, .obj tenses, before.flatMap fun m => tenseValues floats m.2⟩])
        db.working) ?_ h
    intro before m after db heq hbefore
    have hloads (hnot : ¬ E) : LoadsTense floats server m.2 := by
      obtain ⟨tenses', heq', hall⟩ := hE hnot
      cases heq'
      exact hall m (heq ▸ List.mem_append_right _ List.mem_cons_self)
    rw [List.flatMap_append, List.flatMap_singleton]
    exact convertTense_ensures hbefore hloads
  | _ =>
    by_contra hnot
    obtain ⟨tenses, heq, -⟩ := hE hnot
    cases heq

/-- A word that is not in the table. -/
theorem Indexed.insertWord (h : Indexed floats server entries t) (forms : Json F)
    (hnew : selectWord word t = some false) :
    Indexed floats server (entries ++ [⟨word, forms, []⟩])
      { t with words := t.words ++ [(word, Json.dumps floats none false forms)] } := by
  have hword : word ∉ entries.map (·.word) := by
    intro hmem
    obtain ⟨e, he, rfl⟩ := List.mem_map.mp hmem
    have hany := List.any_eq_false.mp (Option.some.inj hnew)
    rw [h.words] at hany
    exact hany _ (List.mem_map_of_mem he) (beq_self_eq_true e.word)
  constructor
  · rw [List.map_append, h.words]
    rfl
  · rw [List.map_append, List.map_singleton, ← List.concat_eq_append]
    exact List.Nodup.concat hword h.distinct
  · intro r hr
    rw [List.map_append]
    exact List.mem_append_left _ (h.known r hr)
  · intro e he
    rcases List.mem_append.mp he with he | he
    · exact h.covers e he
    · have hrows : t.formsOf word = [] := by
        rw [Tables.formsOf, List.map_eq_nil_iff, List.filter_eq_nil_iff]
        intro r hr heq
        exact hword (beq_iff_eq.mp heq ▸ h.known r hr)
      rw [List.mem_singleton.mp he]
      show Covers server [] (t.formsOf word)
      rw [hrows]
      exact ⟨.nil, fun s hs => (nomatch hs), fun v hv => (nomatch hv)⟩

/-- After a word it is committed with all of its values. -/
theorem convertWord_ensures {db : Db Tables} (h : Indexed floats server entries db.working)
    (hI : ∀ t, Indexed floats server (entries ++ [entry floats (word, forms)]) t → I t)
    (hE : ¬ E → LoadsWord floats server (word, forms) ∧ word ∉ entries.map (·.word)) :
    Ensures I E
      (fun db => Indexed floats server (entries ++ [entry floats (word, forms)]) db.working
        ∧ db.committed = db.working)
      (convertWord floats server word forms) db := by
  unfold convertWord Ensures
  rw [selectWord]
  cases hfound : db.working.words.any (·.1 == word) with
  | true =>
    by_contra hnot
    obtain ⟨w, hw, heq⟩ := List.any_eq_true.mp hfound
    rw [h.words] at hw
    obtain ⟨e, he, rfl⟩ := List.mem_map.mp hw
    exact (hE hnot).2 (List.mem_map.mpr ⟨e, he, beq_iff_eq.mp heq⟩)
  | false =>
    dsimp only
    rw [if_neg Bool.false_ne_true]
    unfold Ensures
    cases hinsert : insertWord floats server word forms db.working with
    | none =>
      by_contra hnot
      have hloads := (hE hnot).1
      have hroom : insertWord floats server word forms db.working ≠ none := by
        simp only [insertWord, hloads.word, show server.storesData
          (Json.dumps floats none false forms) = true from hloads.data, hfound, Bool.not_false,
          Bool.and_self, if_true]
        exact Option.some_ne_none _
      exact hroom hinsert
    | some t =>
      obtain ⟨-, heq⟩ := Option.ite_none_right_eq_some.mp hinsert
      cases heq
      have hopen := h.insertWord forms (congrArg some hfound)
      refine (convertForms_ensures hopen fun hnot => (hE hnot).1.forms).andThen ?_
      exact fun db hdb => ⟨hI _ hdb, hdb, rfl⟩

variable {file : List Char} {data : List (Str × Json F)}

/-- **A file that is loaded commits word after word.** -/
theorem convert_ensures (hload : Json.loads floats file = some (.obj data))
    (hE : ¬ E → ∀ m ∈ data, LoadsWord floats server m) :
    Ensures (Committed floats server data) E
      (fun db => Indexed floats server (data.map (entry floats)) db.working
        ∧ db.committed = db.working)
      (convert floats server file) ⟨.empty, .empty⟩ := by
  have hnodup : (data.map (·.1)).Nodup := (Lib.Json.keyed_loads hload).1
  rw [convert, hload]
  refine Ensures.forEach (fun (before : List (Str × Json F)) db =>
    Indexed floats server (before.map (entry floats)) db.working ∧ db.committed = db.working) ?_
    ⟨indexed_empty, rfl⟩
  intro before m after db heq ⟨hbefore, _⟩
  have hwords : (before.map (entry floats)).map (·.word) = before.map (·.1) := by
    rw [List.map_map]
    rfl
  rw [List.map_append]
  refine convertWord_ensures hbefore ?_ fun hnot => ⟨hE hnot m ?_, ?_⟩
  · intro t ht
    refine ⟨before ++ [m], ⟨after, ?_⟩, ?_⟩
    · rw [heq, List.append_assoc, List.singleton_append]
    · rw [List.map_append]
      exact ht
  · rw [heq]
    exact List.mem_append_right _ List.mem_cons_self
  · rw [hwords]
    intro hmem
    rw [heq, List.map_append, List.map_cons] at hnodup
    exact (List.nodup_append.mp hnodup).2.2 m.1 hmem m.1 List.mem_cons_self rfl

/-! ## The index -/

/-- The tables of a file. -/
abbrev loaded (floats : Floats F) (server : Server F) (file : List Char) (n : ℕ) :
    Program Tables × Db Tables := (convert floats server file).steps n ⟨.empty, .empty⟩

/-- Forms as the file has them: lists of strings, or entries that are empty or null. -/
def Regular (floats : Floats F) (forms : Json F) : Prop :=
  ∃ tenses, forms = .obj tenses ∧ ∀ m ∈ tenses, m.2.truthy floats = false
    ∨ ∃ invwords : List Str, m.2 = .arr (invwords.map .str)

/-- A string of a list, where it is not empty and not `'NA'`. -/
structure IsForm (x : Str) (forms : Json F) : Prop where
  not_empty : x ≠ text ""
  not_na : x ≠ text "NA"
  occurs : ∃ tenses, forms = .obj tenses ∧ ∃ m ∈ tenses, ∃ invwords, m.2 = .arr invwords
    ∧ .str x ∈ invwords

theorem mem_formsOf {s : Str} : s ∈ t.formsOf word ↔ (s, word) ∈ t.invwords := by
  rw [Tables.formsOf, List.mem_map]
  constructor
  · intro ⟨r, hr, hs⟩
    obtain ⟨hmem, hword⟩ := List.mem_filter.mp hr
    rw [← hs, ← beq_iff_eq.mp hword]
    exact hmem
  · exact fun hmem => ⟨_, List.mem_filter.mpr ⟨hmem, beq_self_eq_true word⟩, rfl⟩

/-- Each row is there once if each form of a word is. -/
theorem Indexed.nodup (h : Indexed floats server entries t) : t.invwords.Nodup := by
  rw [List.nodup_iff_count_le_one]
  intro r
  by_cases hr : r ∈ t.invwords
  · obtain ⟨e, he, hword⟩ := List.mem_map.mp (h.known r hr)
    have hrows := List.Nodup.of_map _ (h.covers e he).nodup
    have hcount := List.nodup_iff_count_le_one.mp hrows r
    have hkeeps : (r.2 == e.word) = true := beq_iff_eq.mpr hword.symm
    rw [List.count_filter (p := fun r : Str × Str => r.2 == e.word) hkeeps] at hcount
    exact hcount
  · rw [List.count_eq_zero_of_not_mem hr]
    exact Nat.zero_le 1

theorem stored_str {s x : Str} (h : server.stored (.str x : Json F) = some s) : s = x := by
  obtain ⟨-, heq⟩ := Option.ite_none_right_eq_some.mp h
  exact (Option.some.inj heq).symm

theorem equals_str {s x : Str} (h : server.equals s (.str x : Json F) = some true) : s = x :=
  beq_iff_eq.mp (Option.some.inj h)

/-- Where all values are strings, the rows are these strings. -/
theorem Covers.mem_iff {rows : List Str} (h : Covers server values rows)
    (hstrings : ∀ v ∈ values, ∃ x, v = .str x) {x : Str} : x ∈ rows ↔ .str x ∈ values := by
  constructor
  · intro hx
    obtain ⟨v, hv, hstored⟩ := h.sound x hx
    obtain ⟨y, rfl⟩ := hstrings v hv
    rw [stored_str hstored]
    exact hv
  · intro hx
    obtain ⟨s, hs, hstored | hequal⟩ := h.complete _ hx
    · exact stored_str hstored ▸ hs
    · exact equals_str hequal ▸ hs

theorem mem_kept {v : Json F} {invwords : List (Json F)} :
    v ∈ kept floats invwords ↔ v ∈ invwords ∧ skips floats v = false := by
  rw [kept, List.mem_filter, Bool.not_eq_true']

theorem skips_str {x : Str} :
    skips floats (.str x : Json F) = false ↔ x ≠ text "" ∧ x ≠ text "NA" := by
  have hempty : x.points.isEmpty = true ↔ x = text "" :=
    List.isEmpty_iff.trans ⟨fun h => Lib.Str.ext h, congrArg Str.points⟩
  rw [skips, Bool.or_eq_false_iff, beq_eq_false_iff_ne, ← Bool.not_eq_true, hempty, and_comm]

theorem mem_tenseValues {v w : Json F} : w ∈ tenseValues floats v ↔ v.truthy floats = true
    ∧ ∃ invwords, v.elements = some invwords ∧ w ∈ invwords ∧ skips floats w = false := by
  rw [tenseValues]
  cases v.truthy floats with
  | false =>
    rw [if_neg Bool.false_ne_true]
    exact ⟨fun h => (nomatch h), fun h => (nomatch h.1)⟩
  | true =>
    rw [if_pos rfl, mem_kept]
    cases v.elements with
    | none => exact ⟨fun h => (nomatch h.1), fun ⟨_, _, h, _⟩ => (nomatch h)⟩
    | some invwords =>
      constructor
      · exact fun h => ⟨rfl, invwords, rfl, h⟩
      · rintro ⟨-, _, heq, h⟩
        cases heq
        exact h

/-- Where the values of regular forms come from. -/
theorem mem_recordable (h : Regular floats forms) {v : Json F} (hv : v ∈ recordable floats forms) :
    ∃ x, v = .str x ∧ IsForm x forms := by
  obtain ⟨tenses, rfl, htenses⟩ := h
  obtain ⟨m, hm, hvm⟩ := List.mem_flatMap.mp hv
  obtain ⟨htruthy, invwords, helements, hmem, hskips⟩ := mem_tenseValues.mp hvm
  rcases htenses m hm with hfalse | ⟨strings, hstrings⟩
  · rw [htruthy] at hfalse
    cases hfalse
  · rw [hstrings] at helements
    cases helements
    obtain ⟨x, -, rfl⟩ := List.mem_map.mp hmem
    obtain ⟨hempty, hna⟩ := skips_str.mp hskips
    exact ⟨x, rfl, hempty, hna, tenses, rfl, m, hm, _, hstrings, hmem⟩

theorem recordable_iff (h : Regular floats forms) {x : Str} :
    .str x ∈ recordable floats forms ↔ IsForm x forms := by
  constructor
  · intro hx
    obtain ⟨y, heq, hy⟩ := mem_recordable h hx
    cases heq
    exact hy
  · intro ⟨hempty, hna, tenses, hforms, m, hm, invwords, hlist, hx⟩
    rw [hforms]
    refine List.mem_flatMap.mpr ⟨m, hm, mem_tenseValues.mpr ⟨?_, ?_⟩⟩
    · rw [hlist, Lib.Json.truthy]
      cases invwords with
      | nil => cases hx
      | cons w ws => rfl
    · rw [hlist]
      exact ⟨invwords, rfl, hx, skips_str.mpr ⟨hempty, hna⟩⟩

/-! ### The query -/

/-- A join with rows that are there once. -/
theorem select_eq (hnodup : t.invwords.Nodup) (x : Str) :
    select t x = t.words.filter fun w => decide ((x, w.1) ∈ t.invwords) := by
  have hrow (w : Str) : (t.invwords.filter fun i => i.2 == w && i.1 == x) =
      if (x, w) ∈ t.invwords then [(x, w)] else [] := by
    have heq : (fun i : Str × Str => i.2 == w && i.1 == x) = fun i => i == (x, w) := by
      funext i
      rw [Bool.and_comm]
      rfl
    rw [heq, List.filter_beq, List.Nodup.count hnodup]
    split
    · rfl
    · rfl
  rw [select]
  induction t.words with
  | nil => rfl
  | cons w ws ih =>
    rw [List.flatMap_cons, ih, hrow, List.filter_cons]
    by_cases h : (x, w.1) ∈ t.invwords
    · rw [if_pos h, if_pos (decide_eq_true h)]
      rfl
    · rw [if_neg h, if_neg (fun hd => h (of_decide_eq_true hd))]
      rfl

/-! ### Tables of regular verbs -/

variable {before : List (Str × Json F)}

theorem Indexed.mem_words (h : Indexed floats server (before.map (entry floats)) t) {w : Str} :
    w ∈ t.words.map (·.1) ↔ w ∈ before.map (·.1) := by
  rw [h.words, List.map_map, List.map_map]
  rfl

theorem Indexed.mem_invwords (h : Indexed floats server (before.map (entry floats)) t)
    (hregular : ∀ m ∈ before, Regular floats m.2) {x w : Str} :
    (x, w) ∈ t.invwords ↔ ∃ forms, (w, forms) ∈ before ∧ IsForm x forms := by
  have hrows (forms : Json F) (hm : (w, forms) ∈ before) :
      (x, w) ∈ t.invwords ↔ IsForm x forms := by
    have hforms := hregular _ hm
    have hcovers := h.covers _ (List.mem_map_of_mem hm)
    rw [← mem_formsOf, ← recordable_iff hforms]
    exact hcovers.mem_iff fun v hv => (mem_recordable hforms hv).imp fun _ hx => hx.1
  constructor
  · intro hx
    obtain ⟨e, he, hword⟩ := List.mem_map.mp (h.known _ hx)
    obtain ⟨⟨w', forms⟩, hm, rfl⟩ := List.mem_map.mp he
    cases hword
    exact ⟨forms, hm, (hrows forms hm).mp hx⟩
  · intro ⟨forms, hm, hx⟩
    exact (hrows forms hm).mpr hx

/-- A word has one entry in a file. -/
theorem forms_unique (hload : Json.loads floats file = some (.obj data)) {w : Str}
    {forms forms' : Json F} (h : (w, forms) ∈ data) (h' : (w, forms') ∈ data) : forms = forms' := by
  have hnodup : (data.map (·.1)).Nodup := (Lib.Json.keyed_loads hload).1
  have hlookup := (Lib.Json.lookup_eq_some hnodup).mpr h
  rw [(Lib.Json.lookup_eq_some hnodup).mpr h'] at hlookup
  exact (Option.some.inj hlookup).symm

/-- **Wherever the process dies**, the rows of `invwords` are the forms of the words that are
committed, each once. -/
theorem committed_index (hload : Json.loads floats file = some (.obj data))
    (hregular : ∀ m ∈ data, Regular floats m.2) (n : ℕ) :
    (loaded floats server file n).2.committed.invwords.Nodup
      ∧ ∀ x w, (x, w) ∈ (loaded floats server file n).2.committed.invwords ↔
        w ∈ (loaded floats server file n).2.committed.words.map (·.1)
          ∧ ∃ forms, (w, forms) ∈ data ∧ IsForm x forms := by
  have hensures : Ensures (Committed floats server data) True _ _ _ :=
    convert_ensures hload fun hnot => absurd trivial hnot
  obtain ⟨before, hbefore, h⟩ := (hensures.steps ⟨[], List.nil_prefix, indexed_empty⟩ n).2
  refine ⟨h.nodup, fun x w => ?_⟩
  rw [h.mem_words, h.mem_invwords fun m hm => hregular m (hbefore.subset hm)]
  constructor
  · intro ⟨forms, hm, hx⟩
    exact ⟨List.mem_map.mpr ⟨_, hm, rfl⟩, forms, hbefore.subset hm, hx⟩
  · rintro ⟨hw, forms, hm, hx⟩
    obtain ⟨⟨w', forms'⟩, hm', rfl⟩ := List.mem_map.mp hw
    rw [forms_unique hload hm (hbefore.subset hm')] at hx
    exact ⟨forms', hm', hx⟩

/-- The tables after a complete run. -/
theorem indexed_of_done (hload : Json.loads floats file = some (.obj data))
    {n : ℕ} {db : Db Tables} (hdone : loaded floats server file n = (.done, db)) :
    Indexed floats server (data.map (entry floats)) db.committed := by
  have hensures : Ensures (Committed floats server data) True _ _ _ :=
    convert_ensures hload fun hnot => absurd trivial hnot
  obtain ⟨h, hcommitted⟩ := hensures.of_done ⟨[], List.nil_prefix, indexed_empty⟩ hdone
  rw [hcommitted]
  exact h

/-- The rows of a query are words of the file that have the form. -/
theorem Indexed.mem_select (h : Indexed floats server (data.map (entry floats)) t)
    {row : Str × List Char} : row ∈ select t x ↔ ∃ m ∈ data, (x, m.1) ∈ t.invwords
      ∧ row = (m.1, Json.dumps floats none false m.2) := by
  rw [select_eq h.nodup, List.mem_filter, decide_eq_true_eq, h.words, List.map_map, List.mem_map]
  constructor
  · rintro ⟨⟨m, hm, rfl⟩, hx⟩
    exact ⟨m, hm, hx, rfl⟩
  · rintro ⟨m, hm, hx, rfl⟩
    exact ⟨⟨m, hm, rfl⟩, hx⟩

theorem Indexed.select_nodup (h : Indexed floats server (data.map (entry floats)) t)
    (x : Str) : ((select t x).map (·.1)).Nodup := by
  rw [select_eq h.nodup]
  have hwords : (t.words.map (·.1)).Nodup := by
    have hdistinct := h.distinct
    rw [List.map_map] at hdistinct
    rw [h.words, List.map_map, List.map_map]
    exact hdistinct
  exact hwords.sublist (List.filter_sublist.map _)

/-- After a complete run the query returns the words that have the form, each once. -/
theorem query_of_done (hload : Json.loads floats file = some (.obj data))
    (hregular : ∀ m ∈ data, Regular floats m.2) {n : ℕ} {db : Db Tables}
    (hdone : loaded floats server file n = (.done, db)) (x : Str) :
    ((select db.committed x).map (·.1)).Nodup
      ∧ ∀ row, row ∈ select db.committed x ↔ ∃ m ∈ data, IsForm x m.2
        ∧ row = (m.1, Json.dumps floats none false m.2) := by
  have h := indexed_of_done hload hdone
  refine ⟨h.select_nodup x, fun row => h.mem_select.trans ?_⟩
  refine exists_congr fun m => and_congr_right fun hm => and_congr_left fun _ => ?_
  rw [h.mem_invwords hregular]
  constructor
  · intro ⟨forms, hforms, hx⟩
    exact forms_unique hload hforms hm ▸ hx
  · exact fun hx => ⟨m.2, hm, hx⟩

/-- What the server has room for is loaded to the end. -/
theorem loads_done (hload : Json.loads floats file = some (.obj data))
    (hregular : ∀ m ∈ data, Regular floats m.2)
    (hword : ∀ m ∈ data, server.storesWord m.1 = true)
    (hdata : ∀ m ∈ data, server.storesData (Json.dumps floats none false m.2) = true)
    (hforms : ∀ m ∈ data, ∀ x, IsForm x m.2 → server.storesWord x = true) :
    ∃ n db, loaded floats server file n = (.done, db) := by
  have hensures : Ensures (Committed floats server data) False _ _ _ :=
    convert_ensures hload fun _ m hm => ⟨hword m hm, hdata m hm, ?_⟩
  · exact hensures.completes ⟨[], List.nil_prefix, indexed_empty⟩ id
  · obtain ⟨tenses, heq, htenses⟩ := hregular m hm
    refine ⟨tenses, heq, fun tense htense htruthy => ?_⟩
    rcases htenses tense htense with hfalse | ⟨strings, hstrings⟩
    · rw [htruthy] at hfalse
      cases hfalse
    · rw [hstrings]
      refine ⟨_, rfl, fun v hv hskips => ?_⟩
      have hmem : v ∈ tenseValues floats tense.2 :=
        mem_tenseValues.mpr ⟨htruthy, _, hstrings ▸ rfl, hv, hskips⟩
      have hrecordable : v ∈ recordable floats m.2 :=
        heq ▸ List.mem_flatMap.mpr ⟨tense, htense, hmem⟩
      obtain ⟨x, rfl, hx⟩ := mem_recordable (hregular m hm) hrecordable
      exact ⟨x, rfl, hforms m hm x hx⟩

/-- **The index of the forms.** Wherever the process dies, the rows of `invwords` are the forms of
the words that are committed, each once; the server loads what it has room for, and then the query
returns the words that have the form, each once. -/
theorem verbs_indexed (server : Server F) (hload : Json.loads floats file = some (.obj data))
    (hregular : ∀ m ∈ data, Regular floats m.2) :
    (∀ n, (loaded floats server file n).2.committed.invwords.Nodup
        ∧ ∀ x w, (x, w) ∈ (loaded floats server file n).2.committed.invwords ↔
          w ∈ (loaded floats server file n).2.committed.words.map (·.1)
            ∧ ∃ forms, (w, forms) ∈ data ∧ IsForm x forms)
      ∧ (∀ n db, loaded floats server file n = (.done, db) → ∀ x,
        ((select db.committed x).map (·.1)).Nodup
          ∧ ∀ row, row ∈ select db.committed x ↔ ∃ m ∈ data, IsForm x m.2
            ∧ row = (m.1, Json.dumps floats none false m.2))
      ∧ ((∀ m ∈ data, server.storesWord m.1 = true
            ∧ server.storesData (Json.dumps floats none false m.2) = true
            ∧ ∀ x, IsForm x m.2 → server.storesWord x = true) →
        ∃ n db, loaded floats server file n = (.done, db)) := by
  refine ⟨committed_index hload hregular, fun n db => query_of_done hload hregular, ?_⟩
  intro hroom
  exact loads_done hload hregular (fun m hm => (hroom m hm).1) (fun m hm => (hroom m hm).2.1)
    fun m hm => (hroom m hm).2.2

/-- A server that has room for all strings, and takes nothing else. -/
def plainServer : Server Unit where
  storesWord _ := true
  storesData _ := true
  converted _ := none
  equal _ _ := none
  equal_converted _ _ h := nomatch h

/-- Two words with a form in common, and entries of all kinds. -/
def twoVerbs : List (Str × Json Unit) :=
  [(text "suivre", .obj [(text "P", .arr ([text "suis", text "suis", text "NA"].map .str)),
      (text "K", .null)]),
    (text "être", .obj [(text "P", .arr ([text "suis", text ""].map .str)), (text "G", .arr [])])]

theorem twoVerbs_keyed : Json.Keyed (.obj twoVerbs) := by
  have hnames : (twoVerbs.map (·.1)).Nodup := by decide +kernel
  have hsuivre : [text "P", text "K"].Nodup := by decide +kernel
  have hetre : [text "P", text "G"].Nodup := by decide +kernel
  refine ⟨hnames, ⟨hsuivre, ?_⟩, ⟨hetre, ?_⟩, trivial⟩
  · exact ⟨⟨trivial, trivial, trivial, trivial⟩, trivial, trivial⟩
  · exact ⟨⟨trivial, trivial, trivial⟩, trivial, trivial⟩

theorem twoVerbs_regular : ∀ m ∈ twoVerbs, Regular Json.noFloats m.2 := by
  refine List.forall_mem_cons.mpr ⟨⟨_, rfl, ?_⟩, List.forall_mem_singleton.mpr ⟨_, rfl, ?_⟩⟩
  · exact List.forall_mem_cons.mpr ⟨.inr ⟨_, rfl⟩, List.forall_mem_singleton.mpr (.inl rfl)⟩
  · exact List.forall_mem_cons.mpr ⟨.inr ⟨_, rfl⟩, List.forall_mem_singleton.mpr (.inl rfl)⟩

theorem verbs_indexed_two :
    let file := Json.dumps Json.noFloats none false (.obj twoVerbs)
    ∃ n db, loaded Json.noFloats plainServer file n = (.done, db)
      ∧ ((select db.committed (text "suis")).map (·.1)).Nodup := by
  have hload : Json.loads Json.noFloats (Json.dumps Json.noFloats none false (.obj twoVerbs)) =
      some (.obj twoVerbs) := Lib.Json.loads_dumps Lib.Json.noFloats_lawful false twoVerbs_keyed
  have h := verbs_indexed plainServer hload twoVerbs_regular
  obtain ⟨n, db, hdone⟩ := h.2.2 fun m _ => ⟨rfl, rfl, fun _ _ => rfl⟩
  exact ⟨n, db, hdone, (h.2.1 n db hdone (text "suis")).1⟩

end Holchain.French
