import Holchain.Laws.Jsontomysql

/-!
# Laws.Conjugate — what the page shows

The page of a form has a table for each word with the form, where `displayed` is what stands in the
row of a tense. The loader passes over tenses that are missing, empty or null and loads strings
under any key; the page needs `'W'` and all ten tenses, and shows no other. So the two agree on the
files whose words are `Displayable` (`page_shows`).
-/

namespace Holchain.French

open Lib (Str Json Floats Program Db text)

variable {F : Type} {floats : Floats F} {server : Server F} {str : Json F → List ℕ}

/-! ## What a table shows -/

/-- The key of the infinitive, which is the header of the table. -/
def infinitive : Str := text "W"

/-- The keys of the tenses that have a row. -/
def tenseKeys : List Str := tenses.map fun tense => text tense.2

/-- The cells of the header and of the rows. -/
def displayed (forms : Json F) (key : Str) : List (Json F) :=
  if key = infinitive then ((forms.get? key).bind first).toList
  else if key ∈ tenseKeys then ((forms.get? key).bind Json.elements).getD []
  else []

/-- The table of a word whose header is `word`. -/
def tableText (str : Json F → List ℕ) (forms word : Json F) : List ℕ :=
  code "<table>" ++ tableHeader str word
    ++ tenses.flatMap (fun tense => tableRow str tense.1 (displayed forms (text tense.2)))
    ++ code "</table>"

/-- Every string of a list of the word stands in the row of its tense. -/
def StringsDisplayed (str : Json F → List ℕ) (forms : Json F) : Prop :=
  ∀ key items, forms.get? key = some (.arr items) → ∀ s, .str s ∈ items →
    ∃ d ∈ displayed forms key, format str d = s.points

/-- There is a page for the form `x`, it has one table for the word, and the table has every string
of the word in the row of its tense. -/
def Shows (floats : Floats F) (str : Json F → List ℕ) (t : Tables) (x w : Str) (forms : Json F) :
    Prop :=
  ∃ before after word, conjugate str floats t x =
      some (some (htmlPrefix ++ before ++ tableText str forms word ++ after ++ htmlSuffix))
    ∧ ((select t x).map (·.1)).count w = 1
    ∧ displayed forms infinitive = [word] ∧ StringsDisplayed str forms

/-- All tenses that have a row are there and can be gone through. -/
def HasTenses (forms : Json F) : Prop :=
  ∀ key ∈ tenseKeys, ∃ v cells, forms.get? key = some v ∧ v.elements = some cells

/-- **What the page can show**: an infinitive, all ten tenses, and strings nowhere else. -/
structure Displayable (str : Json F → List ℕ) (forms : Json F) : Prop where
  infinitive : ∃ v word, forms.get? infinitive = some v ∧ first v = some word
    ∧ ∀ items, v = .arr items → ∀ s, .str s ∈ items → format str word = s.points
  tenses : HasTenses forms
  others : ∀ key items s, forms.get? key = some (.arr items) → .str s ∈ items →
    key = French.infinitive ∨ key ∈ tenseKeys

/-! ## Tables -/

variable {forms word : Json F} {T : List ℕ}

theorem infinitive_not_tense : infinitive ∉ tenseKeys := by decide +kernel

theorem displayed_tense {key : Str} (h : key ∈ tenseKeys) :
    displayed forms key = ((forms.get? key).bind Json.elements).getD [] := by
  have hne : key ≠ infinitive := fun heq => infinitive_not_tense (heq ▸ h)
  rw [displayed, if_neg hne, if_pos h]

theorem displayed_infinitive : displayed forms infinitive = ((forms.get? infinitive).bind first).toList :=
  if_pos rfl

theorem tenseRow_eq_some {tense : String × String} {row : List ℕ} :
    tenseRow str forms tense = some row ↔ ∃ v cells, forms.get? (text tense.2) = some v
      ∧ v.elements = some cells ∧ row = tableRow str tense.1 cells := by
  constructor
  · intro h
    obtain ⟨v, hv, h⟩ := Option.bind_eq_some_iff.mp h
    obtain ⟨cells, hcells, h⟩ := Option.bind_eq_some_iff.mp h
    exact ⟨v, cells, hv, hcells, (Option.some.inj h).symm⟩
  · rintro ⟨v, cells, hv, hcells, rfl⟩
    exact Option.bind_eq_some_iff.mpr ⟨v, hv, Option.bind_eq_some_iff.mpr ⟨cells, hcells, rfl⟩⟩

section Traverse

variable {A B : Type} {f : A → Option B} {xs : List A} {ys : List B}

theorem mapM_eq_some : xs.mapM f = some ys ↔ xs.map f = ys.map some := by
  induction xs generalizing ys with
  | nil =>
    rw [List.mapM_nil, List.map_nil, Option.pure_def, Option.some.injEq, eq_comm, eq_comm (a := []),
      List.map_eq_nil_iff]
  | cons x xs ih =>
    rw [List.mapM_cons, List.map_cons]
    constructor
    · intro h
      obtain ⟨y, hy, h⟩ := Option.bind_eq_some_iff.mp h
      obtain ⟨ys', hys, h⟩ := Option.bind_eq_some_iff.mp h
      cases h
      rw [hy, ih.mp hys, List.map_cons]
    · intro h
      obtain ⟨y, ys', rfl, hy, hys⟩ := List.map_eq_cons_iff.mp h.symm
      rw [← hy, ih.mpr hys.symm]
      rfl

theorem exists_of_mapM (h : xs.mapM f = some ys) : ∀ x ∈ xs, ∃ y, f x = some y := by
  intro x hx
  have hmem := List.mem_map_of_mem (f := f) hx
  rw [mapM_eq_some.mp h] at hmem
  obtain ⟨y, -, hy⟩ := List.mem_map.mp hmem
  exact ⟨y, hy.symm⟩

end Traverse

theorem tenses_mapM (h : HasTenses forms) : tenses.mapM (tenseRow str forms) =
    some (tenses.map fun tense => tableRow str tense.1 (displayed forms (text tense.2))) := by
  rw [mapM_eq_some, List.map_map]
  refine List.map_congr_left fun tense htense => ?_
  have hkey : text tense.2 ∈ tenseKeys := List.mem_map_of_mem htense
  obtain ⟨v, cells, hv, hcells⟩ := h _ hkey
  refine tenseRow_eq_some.mpr ⟨v, cells, hv, hcells, ?_⟩
  dsimp only
  rw [displayed_tense hkey, hv, Option.bind_some, hcells]
  rfl

theorem hasTenses_of_mapM {rows : List (List ℕ)}
    (h : tenses.mapM (tenseRow str forms) = some rows) : HasTenses forms := by
  intro key hkey
  obtain ⟨tense, htense, rfl⟩ := List.mem_map.mp hkey
  obtain ⟨row, hrow⟩ := exists_of_mapM h tense htense
  obtain ⟨v, cells, hv, hcells, -⟩ := tenseRow_eq_some.mp hrow
  exact ⟨v, cells, hv, hcells⟩

/-- A table is made of an infinitive and all ten tenses. -/
theorem table_eq_some : table str forms = some T ↔
    HasTenses forms ∧ ∃ word, displayed forms infinitive = [word] ∧ T = tableText str forms word := by
  rw [displayed_infinitive]
  constructor
  · intro h
    obtain ⟨w, hw, h⟩ := Option.bind_eq_some_iff.mp h
    obtain ⟨word, hword, h⟩ := Option.bind_eq_some_iff.mp h
    obtain ⟨rows, hrows, h⟩ := Option.bind_eq_some_iff.mp h
    have htenses := hasTenses_of_mapM hrows
    refine ⟨htenses, word, ?_, ?_⟩
    · rw [infinitive, hw, Option.bind_some, hword]
      rfl
    · rw [tenses_mapM htenses] at hrows
      cases hrows
      exact (Option.some.inj h).symm
  · rintro ⟨htenses, word, hword, rfl⟩
    obtain ⟨w, hw, hfirst⟩ := Option.bind_eq_some_iff.mp (Option.toList_eq_singleton_iff.mp hword)
    refine Option.bind_eq_some_iff.mpr ⟨w, hw, Option.bind_eq_some_iff.mpr ⟨word, hfirst, ?_⟩⟩
    exact Option.bind_eq_some_iff.mpr ⟨_, tenses_mapM htenses, rfl⟩

/-- What can be shown is a table with all strings. -/
theorem displayable_iff : Displayable str forms ↔
    (∃ T, table str forms = some T) ∧ StringsDisplayed str forms := by
  constructor
  · intro h
    obtain ⟨v, word, hv, hfirst, hword⟩ := h.infinitive
    have hdisplayed : displayed forms infinitive = [word] := by
      rw [displayed_infinitive, hv, Option.bind_some, hfirst]
      rfl
    refine ⟨⟨_, table_eq_some.mpr ⟨h.tenses, word, hdisplayed, rfl⟩⟩, ?_⟩
    intro key items hitems s hs
    rcases h.others key items s hitems hs with rfl | hkey
    · rw [hitems] at hv
      exact ⟨word, hdisplayed ▸ List.mem_singleton_self word,
        hword items (Option.some.inj hv).symm s hs⟩
    · refine ⟨.str s, ?_, rfl⟩
      rw [displayed_tense hkey, hitems, Option.bind_some]
      exact hs
  · rintro ⟨⟨T, hT⟩, hstrings⟩
    obtain ⟨htenses, word, hword, -⟩ := table_eq_some.mp hT
    constructor
    · have hsome := hword
      rw [displayed_infinitive] at hsome
      obtain ⟨v, hv, hfirst⟩ := Option.bind_eq_some_iff.mp (Option.toList_eq_singleton_iff.mp hsome)
      refine ⟨v, word, hv, hfirst, ?_⟩
      rintro items rfl s hs
      obtain ⟨d, hd, hformat⟩ := hstrings infinitive items hv s hs
      rw [hword] at hd
      exact List.mem_singleton.mp hd ▸ hformat
    · exact htenses
    · intro key items s hitems hs
      obtain ⟨d, hd, -⟩ := hstrings key items hitems s hs
      by_contra hneither
      obtain ⟨hne, hnot⟩ := not_or.mp hneither
      rw [displayed, if_neg hne, if_neg hnot] at hd
      cases hd

/-! ## Pages -/

variable {t : Tables} {x : Str}

/-- The table of a row, from the text in the column. -/
def rowTable (floats : Floats F) (str : Json F → List ℕ) (row : Str × List Char) :
    Option (List ℕ) := (Json.loads floats row.2).bind (table str)

theorem conjugate_eq (h : select t x ≠ []) : conjugate str floats t x =
    ((select t x).mapM (rowTable floats str)).map fun tables =>
      some (htmlPrefix ++ tables.flatten ++ htmlSuffix) := by
  unfold conjugate
  split
  · next hnil => exact absurd hnil h
  · rw [Option.map_eq_bind]
    rfl

/-- A page has a table for every row. -/
theorem rowTable_of_page {page : List ℕ} (h : conjugate str floats t x = some (some page)) :
    ∀ row ∈ select t x, ∃ T, rowTable floats str row = some T := by
  intro row hrow
  rw [conjugate_eq (List.ne_nil_of_mem hrow)] at h
  obtain ⟨tables, htables, -⟩ := Option.map_eq_some_iff.mp h
  exact exists_of_mapM htables row hrow

/-- What stands on the page of a row. -/
def rowText (floats : Floats F) (str : Json F → List ℕ) (row : Str × List Char) : List ℕ :=
  (rowTable floats str row).getD []

theorem rowText_eq {row : Str × List Char} {T : List ℕ} (h : rowTable floats str row = some T) :
    rowText floats str row = T := by
  rw [rowText, h]
  rfl

/-- Where every row has a table, the page has them. -/
theorem page_of_rowTable (h : ∀ row ∈ select t x, ∃ T, rowTable floats str row = some T)
    {row : Str × List Char} (hrow : row ∈ select t x) {T : List ℕ}
    (hT : rowTable floats str row = some T) : ∃ before after,
      conjugate str floats t x = some (some (htmlPrefix ++ before ++ T ++ after ++ htmlSuffix)) := by
  have htables : (select t x).mapM (rowTable floats str) =
      some ((select t x).map (rowText floats str)) := by
    rw [mapM_eq_some, List.map_map]
    refine List.map_congr_left fun row hrow => ?_
    obtain ⟨T, hT⟩ := h row hrow
    rw [Function.comp_apply, rowText_eq hT, hT]
  obtain ⟨pre, post, hsplit⟩ := List.append_of_mem hrow
  refine ⟨(pre.map (rowText floats str)).flatten, (post.map (rowText floats str)).flatten, ?_⟩
  rw [conjugate_eq (List.ne_nil_of_mem hrow), htables, Option.map_some, hsplit, List.map_append,
    List.map_cons, rowText_eq hT, List.flatten_append, List.flatten_cons]
  simp only [List.append_assoc]

/-- There is no page with a row that has no table. -/
theorem no_page {row : Str × List Char} (hrow : row ∈ select t x)
    (h : rowTable floats str row = none) : conjugate str floats t x = none := by
  rw [conjugate_eq (List.ne_nil_of_mem hrow)]
  cases htables : (select t x).mapM (rowTable floats str) with
  | none => rfl
  | some tables =>
    obtain ⟨T, hT⟩ := exists_of_mapM htables row hrow
    rw [h] at hT
    cases hT

/-! ## Every file -/

variable {file : List Char} {data : List (Str × Json F)} {n : ℕ} {db : Db Tables}

variable {m : Str × Json F}

/-- A word has a form if one of its values gets a row. -/
theorem Indexed.has_form (h : Indexed floats server (data.map (entry floats)) t) (hm : m ∈ data) :
    (∃ x, (x, m.1) ∈ t.invwords) ↔ recordable floats m.2 ≠ [] := by
  have hcovers := h.covers _ (List.mem_map_of_mem hm)
  constructor
  · intro ⟨x, hx⟩
    obtain ⟨v, hv, -⟩ := hcovers.sound x (mem_formsOf.mpr hx)
    exact List.ne_nil_of_mem hv
  · intro hne
    obtain ⟨v, hv⟩ := List.exists_mem_of_ne_nil _ hne
    obtain ⟨x, hx, -⟩ := hcovers.complete v hv
    exact ⟨x, mem_formsOf.mp hx⟩

/-- The column of a word has its forms. -/
theorem rowTable_dumps (hfloats : Json.Lawful floats)
    (hload : Json.loads floats file = some (.obj data)) (hm : m ∈ data) :
    rowTable floats str (m.1, Json.dumps floats none false m.2) = table str m.2 := by
  have hkeyed := Lib.Json.keyedMembers_iff.mp (Lib.Json.keyed_loads hload).2 m hm
  have hloads : Json.loads floats (Json.dumps floats none false m.2) = some m.2 :=
    Lib.Json.loads_dumps hfloats false hkeyed
  rw [rowTable, hloads, Option.bind_some]

/-- **Loader and renderer agree on what can be shown**: for the words of a file that is loaded, each
page has what it should if and only if the words that have a form are displayable. -/
theorem page_shows (hfloats : Json.Lawful floats)
    (hload : Json.loads floats file = some (.obj data))
    (hdone : loaded floats server file n = (.done, db)) (str : Json F → List ℕ) :
    (∀ m ∈ data, ∀ x, (x, m.1) ∈ db.committed.invwords →
        Shows floats str db.committed x m.1 m.2)
      ↔ ∀ m ∈ data, recordable floats m.2 ≠ [] → Displayable str m.2 := by
  have h := indexed_of_done hload hdone
  constructor
  · intro hall m hm hne
    obtain ⟨x, hx⟩ := (h.has_form hm).mpr hne
    obtain ⟨before, after, word, hpage, -, -, hstrings⟩ := hall m hm x hx
    obtain ⟨T, hT⟩ := rowTable_of_page hpage _ (h.mem_select.mpr ⟨m, hm, hx, rfl⟩)
    rw [rowTable_dumps hfloats hload hm] at hT
    exact displayable_iff.mpr ⟨⟨T, hT⟩, hstrings⟩
  · intro hall m hm x hx
    have hdisplayable (m : Str × Json F) (hm : m ∈ data) (hx : (x, m.1) ∈ db.committed.invwords) :=
      displayable_iff.mp (hall m hm ((h.has_form hm).mp ⟨x, hx⟩))
    have htables : ∀ row ∈ select db.committed x, ∃ T, rowTable floats str row = some T := by
      intro row hrow
      obtain ⟨m, hm, hx, rfl⟩ := h.mem_select.mp hrow
      rw [rowTable_dumps hfloats hload hm]
      exact (hdisplayable m hm hx).1
    obtain ⟨⟨T, hT⟩, hstrings⟩ := hdisplayable m hm hx
    have hrow := h.mem_select.mpr ⟨m, hm, hx, rfl⟩
    have hrowT := hT
    rw [← rowTable_dumps hfloats hload hm] at hrowT
    obtain ⟨before, after, hpage⟩ := page_of_rowTable htables hrow hrowT
    obtain ⟨-, word, hword, rfl⟩ := table_eq_some.mp hT
    refine ⟨before, after, word, hpage, ?_, hword, hstrings⟩
    exact List.count_eq_one_of_mem (h.select_nodup x) (List.mem_map_of_mem hrow)

/-- `str` of values that the examples do not have. -/
def noStr (_ : Json Unit) : List ℕ := []

/-- A verb with all of its tenses. -/
def parler : Json Unit :=
  .obj ((infinitive, .arr [.str (text "parler")])
    :: tenseKeys.map fun key => (key, .arr [.str (text "parle")]))

/-- A verb of which only one tense is in the file. -/
def falloir : Json Unit :=
  .obj [(infinitive, .arr [.str (text "falloir")]), (text "P", .arr [.str (text "faut")])]

theorem keyed_single (word : Str) {v : Json Unit} (h : Json.Keyed v) :
    Json.Keyed (.obj [(word, v)]) :=
  ⟨List.nodup_singleton word, h, trivial⟩

/-- The file of one verb. -/
def fileOf (word : Str) (forms : Json Unit) : List Char :=
  Json.dumps Json.noFloats none false (.obj [(word, forms)])

theorem loads_fileOf (word : Str) {forms : Json Unit} (h : Json.Keyed forms) :
    Json.loads Json.noFloats (fileOf word forms) = some (.obj [(word, forms)]) :=
  Lib.Json.loads_dumps Lib.Json.noFloats_lawful false (keyed_single word h)

/-- It is loaded to the end. -/
theorem fileOf_done (word : Str) {forms : Json Unit} (h : Json.Keyed forms)
    (hforms : Regular Json.noFloats forms) :
    ∃ n db, loaded Json.noFloats plainServer (fileOf word forms) n = (.done, db) :=
  loads_done (loads_fileOf word h) (List.forall_mem_singleton.mpr hforms) (fun _ _ => rfl)
    (fun _ _ => rfl) fun _ _ _ _ => rfl

theorem parler_keyed : Json.Keyed parler := by
  have hnames : (infinitive :: tenseKeys).Nodup := by decide +kernel
  refine ⟨?_, Lib.Json.keyedMembers_iff.mpr ?_⟩
  · rw [List.map_cons, List.map_map]
    rwa [← List.map_id tenseKeys] at hnames
  · rintro m hm
    rcases List.mem_cons.mp hm with rfl | hm
    · exact ⟨trivial, trivial⟩
    · obtain ⟨key, -, rfl⟩ := List.mem_map.mp hm
      exact ⟨trivial, trivial⟩

theorem parler_regular : Regular Json.noFloats parler := by
  refine ⟨_, rfl, fun m hm => .inr ?_⟩
  rcases List.mem_cons.mp hm with rfl | hm
  · exact ⟨[text "parler"], rfl⟩
  · obtain ⟨key, -, rfl⟩ := List.mem_map.mp hm
    exact ⟨[text "parle"], rfl⟩

theorem parler_displayable : Displayable noStr parler where
  infinitive := by
    refine ⟨.arr [.str (text "parler")], _, rfl, rfl, ?_⟩
    rintro items heq s hs
    cases heq
    cases List.mem_singleton.mp hs
    rfl
  tenses key hkey := by
    have hmem : (key, .arr [.str (text "parle")]) ∈ (infinitive, .arr [.str (text "parler")])
        :: tenseKeys.map fun key => (key, Json.arr (F := Unit) [.str (text "parle")]) :=
      List.mem_cons_of_mem _ (List.mem_map.mpr ⟨key, hkey, rfl⟩)
    exact ⟨_, _, (Lib.Json.lookup_eq_some parler_keyed.1).mpr hmem, rfl⟩
  others key items s hitems hs := by
    have hmem := (Lib.Json.lookup_eq_some parler_keyed.1).mp hitems
    rcases List.mem_cons.mp hmem with heq | hmem
    · exact .inl (congrArg (·.1) heq)
    · obtain ⟨key', hkey, heq⟩ := List.mem_map.mp hmem
      cases heq
      exact .inr hkey

theorem parler_form : IsForm (text "parler") parler where
  not_empty := by decide +kernel
  not_na := by decide +kernel
  occurs := ⟨_, rfl, _, List.mem_cons_self, _, rfl, List.mem_singleton_self _⟩

theorem page_shows_parler : ∃ n db x,
    loaded Json.noFloats plainServer (fileOf (text "parler") parler) n = (.done, db)
      ∧ Shows Json.noFloats noStr db.committed x (text "parler") parler := by
  obtain ⟨n, db, hdone⟩ := fileOf_done (text "parler") parler_keyed parler_regular
  have hload := loads_fileOf (text "parler") parler_keyed
  have hvalue := List.ne_nil_of_mem ((recordable_iff parler_regular).mpr parler_form)
  have hmem : (text "parler", parler) ∈ [(text "parler", parler)] := List.mem_singleton_self _
  obtain ⟨x, hx⟩ := ((indexed_of_done hload hdone).has_form hmem).mpr hvalue
  refine ⟨n, db, x, hdone, ?_⟩
  exact (page_shows Lib.Json.noFloats_lawful hload hdone noStr).mpr
    (List.forall_mem_singleton.mpr fun _ => parler_displayable) _ hmem x hx

theorem falloir_regular : Regular Json.noFloats falloir := by
  refine ⟨_, rfl, List.forall_mem_cons.mpr ⟨.inr ?_, List.forall_mem_singleton.mpr (.inr ?_)⟩⟩
  · exact ⟨[text "falloir"], rfl⟩
  · exact ⟨[text "faut"], rfl⟩

theorem falloir_keyed : Json.Keyed falloir := by
  have hnames : [infinitive, text "P"].Nodup := by decide +kernel
  exact ⟨hnames, ⟨trivial, trivial⟩, ⟨trivial, trivial⟩, trivial⟩

theorem falloir_form : IsForm (text "faut") falloir where
  not_empty := by decide +kernel
  not_na := by decide +kernel
  occurs := ⟨_, rfl, _, List.mem_cons_of_mem _ (List.mem_singleton_self _), _, rfl,
    List.mem_singleton_self _⟩

/-- The loader takes a verb with one tense, and its page raises a `KeyError`. -/
theorem one_tense : ∃ n db,
    loaded Json.noFloats plainServer (fileOf (text "falloir") falloir) n = (.done, db)
      ∧ (text "faut", text "falloir") ∈ db.committed.invwords
      ∧ conjugate noStr Json.noFloats db.committed (text "faut") = none := by
  obtain ⟨n, db, hdone⟩ := fileOf_done (text "falloir") falloir_keyed falloir_regular
  have hload := loads_fileOf (text "falloir") falloir_keyed
  have h := indexed_of_done hload hdone
  have hmem : (text "falloir", falloir) ∈ [(text "falloir", falloir)] := List.mem_singleton_self _
  have hx : (text "faut", text "falloir") ∈ db.committed.invwords :=
    (h.mem_invwords (List.forall_mem_singleton.mpr falloir_regular)).mpr
      ⟨falloir, hmem, falloir_form⟩
  have htable : table noStr falloir = none := by decide +kernel
  refine ⟨n, db, hdone, hx, no_page (h.mem_select.mpr ⟨_, hmem, hx, rfl⟩) ?_⟩
  rw [rowTable_dumps Lib.Json.noFloats_lawful hload hmem]
  exact htable

end Holchain.French
