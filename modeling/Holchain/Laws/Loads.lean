import Holchain.Laws.Jsontomysql

/-!
# Laws.Loads — files that are loaded one after another

The tables outlive a run. Each run adds the words of its file up to some word, wherever it dies, and
all of them with their forms: the tables are an index of what the runs have added. As a word is added
once, a run whose file was begun before adds nothing: a load that died does not go on.
-/

namespace Holchain.French

open Lib (Str Json Floats Program Db text)
open Lib.Program (Ensures)

variable {F : Type} {floats : Floats F} {server : Server F}

/-- The words of a file; there are none where it is no object. -/
def verbs (floats : Floats F) (file : List Char) : List (Str × Json F) :=
  match Json.loads floats file with
  | some (.obj data) => data
  | _ => []

/-- What a run may commit, behind the words of the runs before it. -/
def Adds (floats : Floats F) (server : Server F) (before : List (Str × Json F)) (file : List Char)
    (t : Tables) : Prop :=
  ∃ part, part <+: verbs floats file ∧ Indexed floats server ((before ++ part).map (entry floats)) t

/-- **A run adds words of its file**, and it may fail. -/
theorem convert_adds {before : List (Str × Json F)} (file : List Char) {t : Tables}
    (h : Indexed floats server (before.map (entry floats)) t) :
    Ensures (Adds floats server before file) True (fun _ => True) (convert floats server file)
      ⟨t, t⟩ := by
  unfold convert
  split
  · next data hload =>
    have hverbs : verbs floats file = data := by rw [verbs, hload]
    refine Ensures.mono (Ensures.forEach (fun (part : List (Str × Json F)) db =>
      Indexed floats server ((before ++ part).map (entry floats)) db.working) ?_ ?_)
      (fun _ _ => trivial) id
    · intro part m rest db heq hpart
      have hcommit (t : Tables) (ht : Indexed floats server
          ((before ++ part).map (entry floats) ++ [entry floats (m.1, m.2)]) t) :
          Adds floats server before file t := by
        refine ⟨part ++ [m], ⟨rest, ?_⟩, ?_⟩
        · rw [hverbs, heq, List.append_assoc, List.singleton_append]
        · rw [← List.append_assoc, List.map_append]
          exact ht
      have hword := convertWord_ensures hpart hcommit fun hnot => absurd trivial hnot
      refine hword.mono (fun db hdb => ?_) id
      rw [← List.append_assoc, List.map_append]
      exact hdb.1
    · rwa [List.append_nil]
  · trivial

/-- The programs of some runs. -/
def programs (floats : Floats F) (server : Server F) (runs : List (List Char × ℕ)) :
    List (Program Tables × ℕ) :=
  runs.map fun run => (convert floats server run.1, run.2)

/-- What some runs leave, from any tables. -/
theorem exists_parts (runs : List (List Char × ℕ)) {before : List (Str × Json F)} {t : Tables}
    (h : Indexed floats server (before.map (entry floats)) t) :
    ∃ parts : List (List (Str × Json F)),
      List.Forall₂ (fun run part => part <+: verbs floats run.1) runs parts
        ∧ Indexed floats server ((before ++ parts.flatten).map (entry floats))
          (Program.runs (programs floats server runs) t) := by
  induction runs generalizing before t with
  | nil => exact ⟨[], .nil, by simpa [programs, Program.runs] using h⟩
  | cons run runs ih =>
    have hstart : Adds floats server before run.1 t :=
      ⟨[], List.nil_prefix, by rwa [List.append_nil]⟩
    obtain ⟨part, hpart, hnext⟩ := ((convert_adds run.1 h).steps hstart run.2).2
    obtain ⟨parts, hparts, hend⟩ := ih hnext
    refine ⟨part :: parts, .cons hpart hparts, ?_⟩
    rw [List.flatten_cons, ← List.append_assoc]
    exact hend

/-- Two beginnings of one file that have no word in common. -/
theorem nil_of_prefixes {data part part' : List (Str × Json F)} (h : part <+: data)
    (h' : part' <+: data) (hnodup : ((part ++ part').map (·.1)).Nodup) : part = [] ∨ part' = [] := by
  cases part with
  | nil => exact .inl rfl
  | cons m part =>
    cases part' with
    | nil => exact .inr rfl
    | cons m' part' =>
      obtain ⟨rest, rfl⟩ := h
      obtain ⟨rfl, -⟩ := List.cons_prefix_cons.mp h'
      rw [List.map_append, List.nodup_append] at hnodup
      exact absurd rfl (hnodup.2.2 m'.1 List.mem_cons_self m'.1 List.mem_cons_self)

/-- Of the runs with one file one adds words. -/
theorem pairwise_parts {runs : List (List Char × ℕ)} {parts : List (List (Str × Json F))}
    (h : List.Forall₂ (fun run part => part <+: verbs floats run.1) runs parts)
    (hnodup : (parts.flatten.map (·.1)).Nodup) :
    (runs.zip parts).Pairwise fun run run' => run.1.1 = run'.1.1 → run.2 = [] ∨ run'.2 = [] := by
  induction h with
  | nil => exact .nil
  | @cons run part runs parts hpart hparts ih =>
    rw [List.flatten_cons, List.map_append] at hnodup
    refine List.pairwise_cons.mpr ⟨?_, ih (List.nodup_append.mp hnodup).2.1⟩
    rintro ⟨run', part'⟩ hmem hsame
    have hpart' : part' <+: verbs floats run.1 := by
      rw [show run.1 = run'.1 from hsame]
      exact List.forall₂_zip hparts hmem
    have hsublist : part'.Sublist parts.flatten :=
      List.sublist_flatten_of_mem (List.of_mem_zip hmem).2
    refine nil_of_prefixes hpart hpart' (hnodup.sublist ?_)
    rw [← List.map_append]
    exact ((List.Sublist.refl part).append hsublist).map _

theorem mem_verbs {runs : List (List Char × ℕ)} {parts : List (List (Str × Json F))}
    (h : List.Forall₂ (fun run part => part <+: verbs floats run.1) runs parts) {m : Str × Json F}
    (hm : m ∈ parts.flatten) : ∃ run ∈ runs, m ∈ verbs floats run.1 := by
  induction h with
  | nil => cases hm
  | @cons run part runs parts hpart hparts ih =>
    rcases List.mem_append.mp (List.flatten_cons ▸ hm) with hm | hm
    · exact ⟨run, List.mem_cons_self, hpart.subset hm⟩
    · obtain ⟨run', hrun', hm⟩ := ih hm
      exact ⟨run', List.mem_cons_of_mem run hrun', hm⟩

/-- **Files that are loaded one after another**, each run up to any statement. The tables have the
words that the runs have added, each once and with all of its forms, and a query returns those that
have the form; a run adds words of its file up to some word, and nothing where a run before it has
added words of the same file. -/
theorem loads_indexed (server : Server F) {runs : List (List Char × ℕ)}
    (hregular : ∀ run ∈ runs, ∀ m ∈ verbs floats run.1, Regular floats m.2) :
    let t := Program.runs (programs floats server runs) .empty
    ∃ parts : List (List (Str × Json F)),
      List.Forall₂ (fun run part => part <+: verbs floats run.1) runs parts
        ∧ t.words = parts.flatten.map (fun m => (m.1, Json.dumps floats none false m.2))
        ∧ (t.words.map (·.1)).Nodup
        ∧ t.invwords.Nodup
        ∧ (∀ x w, (x, w) ∈ t.invwords ↔ ∃ forms, (w, forms) ∈ parts.flatten ∧ IsForm x forms)
        ∧ (∀ x row, row ∈ select t x ↔ ∃ m ∈ parts.flatten, IsForm x m.2
          ∧ row = (m.1, Json.dumps floats none false m.2))
        ∧ (runs.zip parts).Pairwise fun run run' => run.1.1 = run'.1.1 → run.2 = [] ∨ run'.2 = [] := by
  intro t
  have hempty : Indexed floats server (List.map (entry floats) []) .empty := indexed_empty
  obtain ⟨parts, hparts, h⟩ := exists_parts runs hempty
  have hwords : (parts.flatten.map (·.1)).Nodup := by
    have hdistinct := h.distinct
    rwa [List.map_map] at hdistinct
  have hforms : ∀ m ∈ parts.flatten, Regular floats m.2 := by
    intro m hm
    obtain ⟨run, hrun, hm⟩ := mem_verbs hparts hm
    exact hregular run hrun m hm
  have hindex (x w : Str) :
      (x, w) ∈ t.invwords ↔ ∃ forms, (w, forms) ∈ parts.flatten ∧ IsForm x forms :=
    h.mem_invwords hforms
  have hcolumn : t.words = parts.flatten.map fun m => (m.1, Json.dumps floats none false m.2) := by
    rw [h.words, List.map_map]
    rfl
  refine ⟨parts, hparts, hcolumn, ?_, h.nodup, hindex, fun x row => h.mem_select.trans ?_,
    pairwise_parts hparts hwords⟩
  · rw [hcolumn, List.map_map]
    exact hwords
  · refine exists_congr fun m => and_congr_right fun hm => and_congr_left fun _ => ?_
    rw [hindex]
    constructor
    · intro ⟨forms, hmem, hx⟩
      have hsame : (m.1, forms) = m := List.inj_on_of_nodup_map hwords hmem hm rfl
      rwa [← hsame]
    · exact fun hx => ⟨m.2, hm, hx⟩

/-- A load that dies, and is begun again. -/
theorem loads_indexed_again :
    let file := Json.dumps Json.noFloats none false (.obj twoVerbs)
    let t := Program.runs (programs Json.noFloats plainServer [(file, 7), (file, 100)]) .empty
    (t.words.map (·.1)).Nodup ∧ t.invwords.Nodup := by
  intro file t
  have hload : Json.loads Json.noFloats file = some (.obj twoVerbs) :=
    Lib.Json.loads_dumps Lib.Json.noFloats_lawful false twoVerbs_keyed
  have hverbs : verbs Json.noFloats file = twoVerbs := by rw [verbs, hload]
  have hregular : ∀ run ∈ [(file, 7), (file, 100)], ∀ m ∈ verbs Json.noFloats run.1,
      Regular Json.noFloats m.2 := by
    intro run hrun m hm
    have hfile : run.1 = file := by
      rcases List.mem_pair.mp hrun with rfl | rfl <;> rfl
    rw [hfile, hverbs] at hm
    exact twoVerbs_regular m hm
  obtain ⟨-, -, -, hwords, hinvwords, -⟩ := loads_indexed plainServer hregular
  exact ⟨hwords, hinvwords⟩

end Holchain.French
