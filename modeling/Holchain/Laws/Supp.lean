import Holchain.Bin.Supp
import Holchain.Lib.JsonLaws

/-!
# Laws.Supp — the file is the catalogue

What the file is for is a `Catalogue`: the supplements and the lists that were accepted, in their
order, where every list names supplements that are there. The file always loads into the records of
the catalogue (`catalogue_persists`), since sorting the members of an object changes nothing that
`load` looks at.
-/

namespace Holchain.Bin.Supp

open Lib (Str Json Floats text)
open Lib.Json (Keyed Lawful)

variable {F : Type} {floats : Floats F}

/-! ## The catalogue -/

/-- What was added. -/
structure Catalogue (F : Type) where
  supplements : List (SupplementArgs F)
  lists : List ListArgs
  resolved : ∀ l ∈ lists, ∀ name ∈ l.supplements, name ∈ supplements.map (·.name)

namespace Catalogue

/-- Nothing. -/
def empty : Catalogue F where
  supplements := []
  lists := []
  resolved _ hl := nomatch hl

/-- What is accepted: a supplement, or a list of supplements that are there. -/
def Accepts (cat : Catalogue F) (call : Call F) : Prop :=
  call.dryRun = false ∧
    match call.item with
    | .supplement _ => True
    | .list l => ∀ name ∈ l.supplements, name ∈ cat.supplements.map (·.name)

instance (cat : Catalogue F) (call : Call F) : Decidable (cat.Accepts call) := by
  unfold Accepts
  cases call.item with
  | supplement args => exact inferInstanceAs (Decidable (_ ∧ True))
  | list l => exact inferInstanceAs (Decidable (_ ∧ ∀ name ∈ l.supplements, _))

/-- One more supplement. -/
def addSupplement (cat : Catalogue F) (args : SupplementArgs F) : Catalogue F where
  supplements := cat.supplements ++ [args]
  lists := cat.lists
  resolved l hl name hname := by
    rw [List.map_append]
    exact List.mem_append_left _ (cat.resolved l hl name hname)

/-- One more list. -/
def addList (cat : Catalogue F) (l : ListArgs)
    (h : ∀ name ∈ l.supplements, name ∈ cat.supplements.map (·.name)) : Catalogue F where
  supplements := cat.supplements
  lists := cat.lists ++ [l]
  resolved l' hl' name hname := by
    rcases List.mem_append.mp hl' with hl' | hl'
    · exact cat.resolved l' hl' name hname
    · rw [List.mem_singleton.mp hl'] at hname
      exact h name hname

/-- What a command line adds, where it is accepted. -/
def add (cat : Catalogue F) (call : Call F) : Catalogue F :=
  if call.dryRun = true then cat
  else
    match call.item with
    | .supplement args => cat.addSupplement args
    | .list l =>
      if h : ∀ name ∈ l.supplements, name ∈ cat.supplements.map (·.name) then cat.addList l h
      else cat

end Catalogue

/-- The catalogue after some command lines. -/
def catalogue (calls : List (Call F)) : Catalogue F := calls.foldl Catalogue.add .empty

/-! ## Records -/

/-- The record of a supplement, each field as it was given. -/
def SupplementArgs.record (args : SupplementArgs F) : Supplement F where
  name := .str args.name
  dosew := .float args.dosew
  dosev := .float args.dosev
  inc := words args.inc
  noop := words args.noop
  dec := words args.dec
  time := (args.time.map words).getD (.str (text "any"))
  notes := words args.notes
  exps := words args.exps

/-- The record of a list. -/
def ListArgs.record (args : ListArgs) : SupplementList F where
  name := .str args.name
  supplements := words args.supplements
  notes := (args.notes.map .str).getD (.arr [])

/-- The records of a catalogue. -/
def Catalogue.database (cat : Catalogue F) : Database F where
  supplements := cat.supplements.map SupplementArgs.record
  supplementLists := cat.lists.map ListArgs.record

theorem load_dict (args : SupplementArgs F) : Supplement.load args.dict = some args.record := rfl

theorem load_listDict (args : ListArgs) :
    SupplementList.load (args.dict : Json F) = some args.record := rfl

/-! ### Sorted and read again -/

/-- A value that has no members to sort and none twice. -/
structure Plain (v : Json F) : Prop where
  sorted : v.sorted = v
  keyed : Keyed v

theorem plain_str (s : Str) : Plain (.str s : Json F) := ⟨rfl, trivial⟩

theorem plain_words (ss : List Str) : Plain (words ss : Json F) := by
  constructor
  · rw [words, Lib.Json.sorted, Lib.Json.sortedItems_eq, List.map_map]
    rfl
  · refine Lib.Json.keyedItems_iff.mpr fun v hv => ?_
    obtain ⟨s, -, rfl⟩ := List.mem_map.mp hv
    trivial

/-- All fields of a record are plain. -/
structure Supplement.Plain (s : Supplement F) : Prop where
  name : Supp.Plain s.name
  dosew : Supp.Plain s.dosew
  dosev : Supp.Plain s.dosev
  inc : Supp.Plain s.inc
  noop : Supp.Plain s.noop
  dec : Supp.Plain s.dec
  time : Supp.Plain s.time
  notes : Supp.Plain s.notes
  exps : Supp.Plain s.exps

@[inherit_doc Supplement.Plain]
structure SupplementList.Plain (l : SupplementList F) : Prop where
  name : Supp.Plain l.name
  supplements : Supp.Plain l.supplements
  notes : Supp.Plain l.notes

theorem plain_record (args : SupplementArgs F) : args.record.Plain where
  name := plain_str args.name
  dosew := ⟨rfl, trivial⟩
  dosev := ⟨rfl, trivial⟩
  inc := plain_words args.inc
  noop := plain_words args.noop
  dec := plain_words args.dec
  time := by
    unfold SupplementArgs.record
    cases args.time with
    | none => exact plain_str _
    | some ts => exact plain_words ts
  notes := plain_words args.notes
  exps := plain_words args.exps

theorem plain_listRecord (args : ListArgs) : (args.record : SupplementList F).Plain where
  name := plain_str args.name
  supplements := plain_words args.supplements
  notes := by
    unfold ListArgs.record
    cases args.notes with
    | none => exact plain_words []
    | some note => exact plain_str note

/-- The fields of a supplement have different names. -/
theorem supplement_names : [text "name", text "dosew", text "dosev", text "inc", text "noop",
    text "dec", text "time", text "notes", text "exps"].Nodup := by decide +kernel

theorem list_names : [text "name", text "supplements", text "notes"].Nodup := by decide +kernel

theorem load_sorted {s : Supplement F} (h : s.Plain) :
    Supplement.load s.serialize.sorted = some s := by
  have hget (key : String) {v : Json F} (hv : s.serialize.get? (text key) = some v)
      (hplain : Plain v) : s.serialize.sorted.get? (text key) = some v :=
    Lib.Json.get?_sorted_flat supplement_names hv hplain.sorted
  simp only [Supplement.load, hget "name" rfl h.name, hget "dosew" rfl h.dosew,
    hget "dosev" rfl h.dosev, hget "inc" rfl h.inc, hget "noop" rfl h.noop, hget "dec" rfl h.dec,
    hget "time" rfl h.time, hget "notes" rfl h.notes, hget "exps" rfl h.exps, Option.bind_eq_bind,
    Option.bind_some]

theorem load_listSorted {l : SupplementList F} (h : l.Plain) :
    SupplementList.load l.serialize.sorted = some l := by
  have hget (key : String) {v : Json F} (hv : l.serialize.get? (text key) = some v)
      (hplain : Plain v) : l.serialize.sorted.get? (text key) = some v :=
    Lib.Json.get?_sorted_flat list_names hv hplain.sorted
  simp only [SupplementList.load, hget "name" rfl h.name, hget "supplements" rfl h.supplements,
    hget "notes" rfl h.notes, Option.bind_eq_bind, Option.bind_some]

/-! ## The file -/

theorem keyed_serialize {s : Supplement F} (h : s.Plain) : Keyed s.serialize :=
  ⟨supplement_names, h.name.keyed, h.dosew.keyed, h.dosev.keyed, h.inc.keyed, h.noop.keyed,
    h.dec.keyed, h.time.keyed, h.notes.keyed, h.exps.keyed, trivial⟩

theorem keyed_listSerialize {l : SupplementList F} (h : l.Plain) : Keyed l.serialize :=
  ⟨list_names, h.name.keyed, h.supplements.keyed, h.notes.keyed, trivial⟩

theorem dump_names : [text "supplements", text "supplement_lists"].Nodup := by decide +kernel

/-- Records that are written, sorted and loaded. -/
theorem mapM_load {A : Type} (serialize : A → Json F) (load : Json F → Option A) (records : List A)
    (h : ∀ a ∈ records, load (serialize a).sorted = some a) :
    (Lib.Json.sortedItems (records.map serialize)).mapM load = some records := by
  induction records with
  | nil => rfl
  | cons a records ih =>
    have hrest := ih fun b hb => h b (List.mem_cons_of_mem a hb)
    rw [List.map_cons, Lib.Json.sortedItems, List.mapM_cons, h a List.mem_cons_self, hrest]
    rfl

/-- The object that is dumped. -/
def Database.object (db : Database F) : Json F :=
  .obj [(text "supplements", .arr (db.supplements.map Supplement.serialize)),
    (text "supplement_lists", .arr (db.supplementLists.map SupplementList.serialize))]

theorem entries_sorted (db : Database F) (key : String) {items : List (Json F)}
    (h : db.object.get? (text key) = some (.arr items)) :
    Database.entries db.object.sorted key = some (Lib.Json.sortedItems items) := by
  have hsorted : db.object.sorted.get? (text key) = (db.object.get? (text key)).map Lib.Json.sorted :=
    Lib.Json.get?_sorted dump_names
  rw [h] at hsorted
  rw [Database.entries, hsorted]
  rfl

/-- **What is dumped is loaded.** -/
theorem load_dump (hfloats : Lawful floats) {db : Database F}
    (hsupplements : ∀ s ∈ db.supplements, s.Plain) (hlists : ∀ l ∈ db.supplementLists, l.Plain) :
    Database.load floats (some (db.dump floats)) = some db := by
  have hkeyed : Keyed db.object := by
    refine ⟨dump_names, Lib.Json.keyedItems_iff.mpr ?_, Lib.Json.keyedItems_iff.mpr ?_, trivial⟩
    · intro v hv
      obtain ⟨s, hs, rfl⟩ := List.mem_map.mp hv
      exact keyed_serialize (hsupplements s hs)
    · intro v hv
      obtain ⟨l, hl, rfl⟩ := List.mem_map.mp hv
      exact keyed_listSerialize (hlists l hl)
  have hloads : Lib.Json.loads floats (db.dump floats) = some db.object.sorted :=
    Lib.Json.loads_dumps hfloats true hkeyed
  obtain ⟨members, hmembers⟩ : ∃ members, db.object.sorted = .obj members := ⟨_, rfl⟩
  have hfirst := entries_sorted db "supplements" rfl
  have hsecond := entries_sorted db "supplement_lists" rfl
  rw [hmembers] at hloads hfirst hsecond
  have hload := mapM_load Supplement.serialize Supplement.load db.supplements fun s hs =>
    load_sorted (hsupplements s hs)
  have hloadLists := mapM_load SupplementList.serialize SupplementList.load db.supplementLists
    fun l hl => load_listSorted (hlists l hl)
  simp only [Database.load, hloads, Option.bind_eq_bind, Option.bind_some, hfirst, hload, hsecond,
    hloadLists]

theorem load_database (hfloats : Lawful floats) (cat : Catalogue F) :
    Database.load floats (some (cat.database.dump floats)) = some cat.database := by
  apply load_dump hfloats
  · intro s hs
    obtain ⟨args, -, rfl⟩ := List.mem_map.mp hs
    exact plain_record args
  · intro l hl
    obtain ⟨args, -, rfl⟩ := List.mem_map.mp hl
    exact plain_listRecord args

/-! ## Adding -/

theorem isNamed_eq {name : Str} {v : Json F} (h : Database.isNamed name v = true) :
    v = .str name := by
  cases v with
  | str s => exact congrArg Lib.Json.str (eq_of_beq h)
  | _ => cases h

/-- A name is found if a supplement has it. -/
theorem getSupplement_some (cat : Catalogue F) (name : Str) :
    (cat.database.getSupplement name).isSome = true ↔ name ∈ cat.supplements.map (·.name) := by
  rw [Database.getSupplement, List.find?_isSome, Catalogue.database, List.mem_map]
  constructor
  · rintro ⟨s, hs, hname⟩
    obtain ⟨args, hargs, rfl⟩ := List.mem_map.mp hs
    exact ⟨args, hargs, eq_of_beq hname⟩
  · intro ⟨args, hargs, hname⟩
    exact ⟨args.record, List.mem_map_of_mem hargs, beq_iff_eq.mpr hname⟩

theorem validate_record (cat : Catalogue F) (l : ListArgs) :
    cat.database.validate l.record = true ↔
      ∀ name ∈ l.supplements, name ∈ cat.supplements.map (·.name) := by
  have hnames : cat.database.validate l.record =
      l.supplements.all fun name => (cat.database.getSupplement name).isSome := by
    simp only [Database.validate, ListArgs.record, words, Lib.Json.elements, List.all_map]
    rfl
  rw [hnames, List.all_eq_true]
  exact forall₂_congr fun name _ => getSupplement_some cat name

theorem database_addSupplement (cat : Catalogue F) (args : SupplementArgs F) :
    (cat.addSupplement args).database =
      ⟨cat.database.supplements ++ [args.record], cat.database.supplementLists⟩ := by
  simp only [Catalogue.database, Catalogue.addSupplement, List.map_append, List.map_cons,
    List.map_nil]

theorem database_addList (cat : Catalogue F) (l : ListArgs)
    (h : ∀ name ∈ l.supplements, name ∈ cat.supplements.map (·.name)) :
    (cat.addList l h).database =
      ⟨cat.database.supplements, cat.database.supplementLists ++ [l.record]⟩ := by
  simp only [Catalogue.database, Catalogue.addList, List.map_append, List.map_cons, List.map_nil]

/-- **A process adds what the catalogue accepts**, -/
theorem addItem_accepted {cat : Catalogue F} {call : Call F} (h : cat.Accepts call) :
    addItem cat.database call = some (cat.add call).database := by
  obtain ⟨item, dryRun⟩ := call
  obtain ⟨hdry, haccepted⟩ := h
  cases hdry
  cases item with
  | supplement args =>
    have hadd : cat.add ⟨.supplement args, false⟩ = cat.addSupplement args := rfl
    rw [hadd, database_addSupplement]
    simp only [addItem, load_dict, Option.bind_eq_bind, Option.bind_some, Bool.false_eq_true,
      if_false]
  | list l =>
    have hvalid := (validate_record cat l).mpr haccepted
    have hadd : cat.add ⟨.list l, false⟩ = cat.addList l haccepted := dif_pos haccepted
    rw [hadd, database_addList]
    simp only [addItem, load_listDict, Option.bind_eq_bind, Option.bind_some, hvalid, if_true,
      Bool.false_eq_true, if_false]

/-- and nothing else. -/
theorem addItem_rejected {cat : Catalogue F} {call : Call F} (h : ¬ cat.Accepts call) :
    addItem cat.database call = none ∧ cat.add call = cat := by
  obtain ⟨item, dryRun⟩ := call
  cases dryRun with
  | true =>
    refine ⟨?_, rfl⟩
    cases item with
    | supplement args => rfl
    | list l => rfl
  | false =>
    cases item with
    | supplement args => exact absurd ⟨rfl, trivial⟩ h
    | list l =>
      have hnot : ¬ ∀ name ∈ l.supplements, name ∈ cat.supplements.map (·.name) :=
        fun hall => h ⟨rfl, hall⟩
      have hinvalid : ¬ cat.database.validate l.record = true :=
        fun hvalid => hnot ((validate_record cat l).mp hvalid)
      refine ⟨?_, dif_neg hnot⟩
      simp only [addItem, load_listDict, Option.bind_eq_bind, Option.bind_some, hinvalid,
        Bool.false_eq_true, if_false]

/-! ## Every run -/

theorem catalogue_snoc (calls : List (Call F)) (call : Call F) :
    catalogue (calls ++ [call]) = (catalogue calls).add call := by
  rw [catalogue, List.foldl_append]
  rfl

theorem after_snoc (calls : List (Call F)) (call : Call F) :
    after floats (calls ++ [call]) = run floats (after floats calls) call := by
  rw [after, List.foldl_append]
  rfl

/-- The file of a catalogue is its dump, and the empty one may have none. -/
def Holds (floats : Floats F) (cat : Catalogue F) (file : Option (List Char)) : Prop :=
  Database.load floats file = some cat.database

theorem run_accepted (hfloats : Lawful floats) {cat : Catalogue F} {file : Option (List Char)}
    {call : Call F} (hfile : Holds floats cat file) (h : cat.Accepts call) :
    Holds floats (cat.add call) (run floats file call) := by
  have hrun : run floats file call = some ((cat.add call).database.dump floats) := by
    simp only [run, show Database.load floats file = _ from hfile, addItem_accepted h]
  rw [hrun]
  exact load_database hfloats (cat.add call)

theorem run_rejected {cat : Catalogue F} {file : Option (List Char)} {call : Call F}
    (hfile : Holds floats cat file) (h : ¬ cat.Accepts call) : run floats file call = file := by
  simp only [run, show Database.load floats file = _ from hfile, (addItem_rejected h).1]

/-- **After every run the file holds the catalogue.** -/
theorem after_holds (hfloats : Lawful floats) (calls : List (Call F)) :
    Holds floats (catalogue calls) (after floats calls) := by
  induction calls using List.reverseRecOn with
  | nil => rfl
  | append_singleton calls call ih =>
    rw [catalogue_snoc, after_snoc]
    by_cases h : (catalogue calls).Accepts call
    · exact run_accepted hfloats ih h
    · rw [run_rejected ih h, (addItem_rejected h).2]
      exact ih

/-- **The file is the catalogue.** After any processes it loads into the accepted items, in order
and with all fields; a rejected item leaves it as it was, and every name in a stored list is found. -/
theorem catalogue_persists (hfloats : Lawful floats) (calls : List (Call F)) :
    Database.load floats (after floats calls) = some (catalogue calls).database
      ∧ (∀ call, ¬ (catalogue calls).Accepts call →
        after floats (calls ++ [call]) = after floats calls)
      ∧ ∀ l ∈ (catalogue calls).lists, ∀ name ∈ l.supplements, ∃ s,
        (catalogue calls).database.getSupplement name = some s ∧ s.name = .str name := by
  have hholds := after_holds hfloats calls
  refine ⟨hholds, fun call hcall => ?_, fun l hl name hname => ?_⟩
  · rw [after_snoc, run_rejected hholds hcall]
  · have hsome := (getSupplement_some _ _).mpr ((catalogue calls).resolved l hl name hname)
    obtain ⟨s, hs⟩ := Option.isSome_iff_exists.mp hsome
    have hnamed : Database.isNamed name s.name = true :=
      List.find?_some (p := fun s : Supplement F => Database.isNamed name s.name) hs
    exact ⟨s, hs, isNamed_eq hnamed⟩

/-- One float that is a number, and one that is none. -/
def oneAndAHalf : Floats Bool where
  text x := if x then Lib.word "1.5" else Lib.word "NaN"
  ofNumber text := text == Lib.word "1.5"
  nan := false
  infinity := false
  minusInfinity := false
  isZero _ := false

theorem oneAndAHalf_lawful : Lawful oneAndAHalf where
  read
    | true => .inl ⟨['1'], ['.', '5'], rfl, List.cons_ne_nil _ _, rfl⟩
    | false => .inr (.inl ⟨rfl, rfl⟩)

/-- A supplement, a list of it, and a list of one that is not there. -/
def threeCalls : List (Call Bool) :=
  [⟨.supplement ⟨text "zinc", true, true, [text "d"], [], [], none, [text "é"], []⟩, false⟩,
    ⟨.list ⟨text "daily", [text "zinc"], none⟩, false⟩,
    ⟨.list ⟨text "other", [text "iron"], none⟩, false⟩]

theorem catalogue_persists_three :
    Database.load oneAndAHalf (after oneAndAHalf threeCalls) = some (catalogue threeCalls).database
      ∧ (catalogue threeCalls).lists.length = 1 :=
  ⟨(catalogue_persists oneAndAHalf_lawful threeCalls).1, rfl⟩

end Holchain.Bin.Supp
