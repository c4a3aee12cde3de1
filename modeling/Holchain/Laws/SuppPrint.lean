import Holchain.Bin.SuppPrint
import Holchain.Laws.SuppNames
import Holchain.Lib.JsonLines

/-!
# Laws.SuppPrint — the catalogue comes back from what is printed

After any processes `print_items` writes the items of the catalogue that its pattern finds, one line
each and in their order, and a line is read back as the fields that were asked for; all fields make
the record again. `print_item` writes the first item of each name, up to a name without one
(`prints_catalogue`). A dry run writes the line that `print_items` will write for the item
(`dry_run_shows`).
-/

namespace Holchain.Bin.Supp

open Lib (Str Json Floats text)
open Lib.Json (Keyed Lawful)

variable {F : Type} {floats : Floats F} {cat : Catalogue F} {cls : Cls} {item : Item F}
  {file : Option (List Char)}

/-! ## Items of the catalogue -/

/-- What was added to a class. -/
def Catalogue.items (cat : Catalogue F) : Cls → List (Item F)
  | .supplement => cat.supplements.map .supplement
  | .list => cat.lists.map .list

theorem getItems_database (cat : Catalogue F) (cls : Cls) :
    cat.database.getItems cls = (cat.items cls).map Item.record := by
  cases cls with
  | supplement =>
    show (cat.supplements.map SupplementArgs.record).map Record.supplement = _
    rw [Catalogue.items, List.map_map, List.map_map]
    rfl
  | list =>
    show (cat.lists.map ListArgs.record).map Record.list = _
    rw [Catalogue.items, List.map_map, List.map_map]
    rfl

theorem cls_of_mem_items (h : item ∈ cat.items cls) : item.cls = cls := by
  cases cls with
  | supplement =>
    obtain ⟨args, -, rfl⟩ := List.mem_map.mp h
    rfl
  | list =>
    obtain ⟨args, -, rfl⟩ := List.mem_map.mp h
    rfl

/-- The first one of a name. -/
theorem getItem_database (cat : Catalogue F) (cls : Cls) (name : Str) :
    cat.database.getItem cls name =
      ((cat.items cls).find? fun i => i.name == name).map Item.record := by
  have hnamed : (Record.isNamed name ∘ Item.record : Item F → Bool) = fun i => i.name == name := by
    funext i
    show Database.isNamed name i.record.name = _
    rw [name_record]
    rfl
  rw [getItem_eq, getItems_database, List.find?_map, hnamed]

/-! ## Fields -/

/-- The fields of a class. -/
def Cls.fields : Cls → List Str
  | .supplement => [text "name", text "dosew", text "dosev", text "inc", text "noop", text "dec",
      text "time", text "notes", text "exps"]
  | .list => [text "name", text "supplements", text "notes"]

theorem nodup_fields (cls : Cls) : cls.fields.Nodup := by
  cases cls with
  | supplement => exact supplement_names
  | list => exact list_names

theorem load_item (item : Item F) : item.load = some item.record := by
  cases item with
  | supplement args => rfl
  | list args => rfl

/-- A record is an object of its fields. -/
theorem serialize_record (item : Item F) : ∃ members, item.record.serialize = .obj members
    ∧ members.map (·.1) = item.cls.fields ∧ Keyed item.record.serialize := by
  cases item with
  | supplement args => exact ⟨_, rfl, rfl, keyed_serialize (plain_record args)⟩
  | list args => exact ⟨_, rfl, rfl, keyed_listSerialize (plain_listRecord args)⟩

theorem isSome_field (item : Item F) (k : Str) :
    (item.record.serialize.get? k).isSome = true ↔ k ∈ item.cls.fields := by
  obtain ⟨members, hmembers, hnames, -⟩ := serialize_record item
  rw [hmembers, ← hnames, Json.get?, List.lookup_isSome_iff, List.mem_map]
  refine exists_congr fun m => and_congr_right fun _ => ?_
  rw [beq_iff_eq]
  exact eq_comm

/-- The value of a field. -/
def Item.field (item : Item F) (k : Str) : Json F := (item.record.serialize.get? k).getD .null

theorem get?_field {k : Str} (h : k ∈ item.cls.fields) :
    item.record.serialize.get? k = some (item.field k) := by
  obtain ⟨v, hv⟩ := Option.isSome_iff_exists.mp ((isSome_field item k).mpr h)
  rw [Item.field, hv]
  rfl

theorem keyed_field (item : Item F) (k : Str) : Keyed (item.field k) := by
  obtain ⟨members, hmembers, -, hkeyed⟩ := serialize_record item
  rw [hmembers] at hkeyed
  rw [Item.field, hmembers, Json.get?]
  cases hv : members.lookup k with
  | none => trivial
  | some v =>
    exact Lib.Json.keyedMembers_iff.mp hkeyed.2 (k, v) ((Lib.Json.lookup_eq_some hkeyed.1).mp hv)

/-- The fields that are printed: those that were asked for, each once, or all of the class. -/
def Cls.asked (cls : Cls) : Option (List Str) → List Str
  | none => cls.fields
  | some [] => cls.fields
  | some (k :: ks) => (k :: ks).eraseDups

/-- What is to be seen of an item. -/
def Item.shown (item : Item F) (fields : Option (List Str)) : Json F :=
  .obj ((item.cls.asked fields).map fun k => (k, item.field k))

theorem serialize_shown (item : Item F) : item.record.serialize = item.shown none := by
  obtain ⟨members, hmembers, hnames, hkeyed⟩ := serialize_record item
  rw [hmembers] at hkeyed
  have hfields : members.map (fun m => (m.1, item.field m.1)) = members.map id := by
    apply List.map_congr_left
    intro m hm
    have hv : members.lookup m.1 = some m.2 := (Lib.Json.lookup_eq_some hkeyed.1).mpr hm
    rw [Item.field, hmembers, Json.get?, hv]
    rfl
  rw [Item.shown, Cls.asked, ← hnames, List.map_map]
  exact hmembers.trans (congrArg Json.obj (hfields.trans (List.map_id members)).symm)

theorem keyed_shown (item : Item F) (fields : Option (List Str)) : Keyed (item.shown fields) := by
  have hnames (ks : List Str) : (ks.map fun k => (k, item.field k)).map (·.1) = ks := by
    rw [List.map_map]
    exact List.map_id ks
  have hnodup : (item.cls.asked fields).Nodup := by
    match fields with
    | none => exact nodup_fields item.cls
    | some [] => exact nodup_fields item.cls
    | some (k :: ks) => exact Lib.nodup_eraseDups (k :: ks)
  constructor
  · rw [hnames]
    exact hnodup
  · rw [Lib.Json.keyedMembers_iff]
    intro m hm
    obtain ⟨k, -, rfl⟩ := List.mem_map.mp hm
    exact keyed_field item k

theorem select_known {ks : List Str} (h : ∀ k ∈ ks, k ∈ item.cls.fields) :
    select item.record.serialize ks = some (.obj (ks.eraseDups.map fun k => (k, item.field k))) := by
  have hpairs : (ks.mapM fun k => (item.record.serialize.get? k).map fun v => (k, v)) =
      some (ks.map fun k => (k, item.field k)) := by
    induction ks with
    | nil => rfl
    | cons k ks ih =>
      have hrest := ih fun k' hk' => h k' (List.mem_cons_of_mem k hk')
      rw [List.mapM_cons, get?_field (h k List.mem_cons_self), hrest]
      rfl
  rw [select, hpairs, ← Lib.Json.dict_map]
  rfl

theorem select_unknown {ks : List Str} {k : Str} (hk : k ∈ ks) (h : k ∉ item.cls.fields) :
    select item.record.serialize ks = none := by
  have hpairs : (ks.mapM fun k => (item.record.serialize.get? k).map fun v => (k, v)) = none := by
    induction ks with
    | nil => cases hk
    | cons k' ks ih =>
      rw [List.mapM_cons]
      rcases List.mem_cons.mp hk with rfl | hk
      · have hnone : item.record.serialize.get? k = none := by
          rw [← Option.not_isSome_iff_eq_none, isSome_field]
          exact h
        rw [hnone]
        rfl
      · rw [ih hk]
        cases item.record.serialize.get? k' with
        | none => rfl
        | some v => rfl
  rw [select, hpairs]
  rfl

/-- A class has all fields that are asked for. -/
def Cls.Has (cls : Cls) (fields : Option (List Str)) : Prop :=
  ∀ k ∈ cls.asked fields, k ∈ cls.fields

theorem has_none (cls : Cls) : cls.Has none := fun _ hk => hk

theorem serialized_record {fields : Option (List Str)} (h : item.cls.Has fields) :
    item.record.serialized fields = some (item.shown fields) := by
  match fields with
  | none => exact congrArg some (serialize_shown item)
  | some [] => exact congrArg some (serialize_shown item)
  | some (k :: ks) => exact select_known fun k' hk' => h k' (List.mem_eraseDups.mpr hk')

theorem serialized_unknown {fields : Option (List Str)} (h : ¬ item.cls.Has fields) :
    item.record.serialized fields = none := by
  match fields with
  | none => exact absurd (has_none item.cls) h
  | some [] => exact absurd (has_none item.cls) h
  | some (k :: ks) =>
    obtain ⟨k', hk'⟩ := not_forall.mp h
    obtain ⟨hasked, hunknown⟩ := Classical.not_imp.mp hk'
    exact select_unknown (List.mem_eraseDups.mp hasked) hunknown

/-! ## Printing -/

/-- Values that are printed one after another. -/
def texts (floats : Floats F) (indent : Option ℕ) (vs : List (Json F)) : List Char :=
  vs.flatMap (printed floats indent)

/-- What `print_items` looks for. -/
def searched (re : Re) : Option Str → Option (Str → Bool)
  | none => some fun _ => true
  | some pattern => if pattern.points = [] then some fun _ => true else re pattern

section Records

variable {fields : Option (List Str)} {items : List (Item F)} {search : Str → Bool}

theorem printRecords_passed (h : search item.name = false) (records : List (Record F)) :
    printRecords floats (some search) fields (item.record :: records) =
      printRecords floats (some search) fields records := by
  have hsearch : (some search).elim (some true) (found · item.record.name) = some false := by
    rw [name_record]
    exact congrArg some h
  rw [printRecords, hsearch]

theorem printRecords_found (h : search item.name = true) (records : List (Record F)) :
    printRecords floats (some search) fields (item.record :: records) =
      (item.record.serialized fields).elim ⟨[], .raised⟩ fun ser =>
        (printRecords floats (some search) fields records).behind (printed floats none ser) := by
  have hsearch : (some search).elim (some true) (found · item.record.name) = some true := by
    rw [name_record]
    exact congrArg some h
  rw [printRecords, hsearch]
  cases item.record.serialized fields with
  | none => rfl
  | some ser => rfl

/-- What is found is printed, one line each, -/
theorem printRecords_has (hcls : ∀ i ∈ items, i.cls = cls) (h : cls.Has fields) :
    printRecords floats (some search) fields (items.map Item.record) =
      ⟨texts floats none ((items.filter fun i => search i.name).map (·.shown fields)), .success⟩ := by
  induction items with
  | nil => rfl
  | cons i items ih =>
    have hrest := ih fun j hj => hcls j (List.mem_cons_of_mem i hj)
    rw [List.map_cons]
    cases hfound : search i.name with
    | true =>
      have hi : i.cls.Has fields := hcls i List.mem_cons_self ▸ h
      have hfilter : (i :: items).filter (fun i => search i.name) =
          i :: items.filter fun i => search i.name := List.filter_cons_of_pos hfound
      rw [printRecords_found hfound, serialized_record hi, hrest, hfilter]
      rfl
    | false =>
      have hfilter : (i :: items).filter (fun i => search i.name) =
          items.filter fun i => search i.name :=
        List.filter_cons_of_neg (by simp [hfound])
      rw [printRecords_passed hfound, hrest, hfilter]

/-- or nothing, where there is no such field. -/
theorem printRecords_unknown (hcls : ∀ i ∈ items, i.cls = cls) (h : ¬ cls.Has fields) :
    printRecords floats (some search) fields (items.map Item.record) =
      ⟨[], if items.any fun i => search i.name then .raised else .success⟩ := by
  induction items with
  | nil => rfl
  | cons i items ih =>
    have hrest := ih fun j hj => hcls j (List.mem_cons_of_mem i hj)
    rw [List.map_cons, List.any_cons]
    cases hfound : search i.name with
    | true =>
      have hi : ¬ i.cls.Has fields := hcls i List.mem_cons_self ▸ h
      rw [printRecords_found hfound, serialized_unknown hi]
      rfl
    | false =>
      rw [printRecords_passed hfound, hrest]
      rfl

/-- Without a pattern everything is found. -/
theorem printRecords_none (fields : Option (List Str)) (items : List (Item F)) :
    printRecords floats none fields (items.map Item.record) =
      printRecords floats (some fun _ => true) fields (items.map Item.record) := by
  induction items with
  | nil => rfl
  | cons i items ih =>
    rw [List.map_cons, printRecords, printRecords, name_record, ih]
    rfl

end Records

/-- What `print_items` comes down to. -/
theorem printItems_eq (re : Re) (cat : Catalogue F) (cls : Cls) (name : Option Str)
    (fields : Option (List Str)) : printItems floats re cat.database cls name fields =
      (searched re name).elim ⟨[], .raised⟩ fun search =>
        printRecords floats (some search) fields ((cat.items cls).map Item.record) := by
  unfold printItems
  rw [getItems_database]
  cases name with
  | none => exact printRecords_none fields _
  | some pattern =>
    by_cases hempty : pattern.points = []
    · have hfilter : (some pattern).filter (fun p => !p.points.isEmpty) = none :=
        Option.filter_some_neg (by simp [hempty])
      rw [hfilter, searched, if_pos hempty]
      exact printRecords_none fields _
    · have hfilter : (some pattern).filter (fun p => !p.points.isEmpty) = some pattern :=
        Option.filter_some_pos (by simp [hempty])
      rw [hfilter, searched, if_neg hempty]
      cases hre : re pattern with
      | none =>
        simp only [hre]
        rfl
      | some search =>
        simp only [hre]
        rfl

/-! ### The first of a name -/

/-- The first item of a name. -/
def Catalogue.first (cat : Catalogue F) (cls : Cls) (name : Str) : Option (Item F) :=
  (cat.items cls).find? fun i => i.name == name

/-- The first items of the names, up to a name that has none. -/
def Catalogue.firsts (cat : Catalogue F) (cls : Cls) (names : List Str) : List (Item F) :=
  ((names.map (cat.first cls)).takeWhile Option.isSome).reduceOption

/-- How `print_item` ends: with the text about that name. -/
def Catalogue.ending (cat : Catalogue F) (cls : Cls) (names : List Str) : Exit :=
  (names.find? fun n => (cat.first cls n).isNone).elim .success fun n => .message (missing cls n)

section Firsts

variable {n : Str} {i : Item F}

theorem firsts_missing (h : cat.first cls n = none) (names : List Str) :
    cat.firsts cls (n :: names) = [] := by
  rw [Catalogue.firsts, List.map_cons, h]
  rfl

theorem firsts_found (h : cat.first cls n = some i) (names : List Str) :
    cat.firsts cls (n :: names) = i :: cat.firsts cls names := by
  rw [Catalogue.firsts, List.map_cons, h]
  rfl

theorem ending_missing (h : cat.first cls n = none) (names : List Str) :
    cat.ending cls (n :: names) = .message (missing cls n) := by
  have hfind : (n :: names).find? (fun n => (cat.first cls n).isNone) = some n :=
    List.find?_cons_of_pos (by simp [h])
  rw [Catalogue.ending, hfind]
  rfl

theorem ending_found (h : cat.first cls n = some i) (names : List Str) :
    cat.ending cls (n :: names) = cat.ending cls names := by
  have hfind : (n :: names).find? (fun n => (cat.first cls n).isNone) =
      names.find? fun n => (cat.first cls n).isNone :=
    List.find?_cons_of_neg (by simp [h])
  rw [Catalogue.ending, hfind]
  rfl

end Firsts

theorem printItem_eq {fields : Option (List Str)} (h : cls.Has fields) (names : List Str) :
    printItem floats cat.database cls fields names =
      ⟨texts floats (some 2) ((cat.firsts cls names).map (·.shown fields)), cat.ending cls names⟩ := by
  induction names with
  | nil => rfl
  | cons n names ih =>
    have hget : cat.database.getItem cls n = (cat.first cls n).map Item.record :=
      getItem_database cat cls n
    rw [printItem, hget, ih]
    cases hfirst : cat.first cls n with
    | none =>
      rw [firsts_missing hfirst, ending_missing hfirst]
      rfl
    | some i =>
      have hi : i.cls.Has fields := cls_of_mem_items (List.mem_of_find?_eq_some hfirst) ▸ h
      rw [firsts_found hfirst, ending_found hfirst]
      simp only [Option.map_some, serialized_record hi]
      rfl

/-! ## Processes -/

/-- What a command line adds. -/
def Command.call? : Command F → Option (Call F)
  | .addItem call => some call
  | .printItem .. => none
  | .printItems .. => none
  | .nothing => none

/-- Only items that are added change the file. -/
theorem process_file (re : Re) (file : Option (List Char)) (command : Command F) :
    (process floats re file command).1 = command.call?.elim file (run floats file) := by
  unfold process
  cases hload : Database.load floats file with
  | none =>
    cases command with
    | addItem call =>
      show file = run floats file call
      rw [run, hload]
    | _ => rfl
  | some db =>
    cases command with
    | addItem call => rfl
    | _ => rfl

/-- The catalogue after some processes. -/
def added (commands : List (Command F)) : Catalogue F := catalogue (commands.filterMap Command.call?)

theorem afterAll_eq (re : Re) (commands : List (Command F)) :
    afterAll floats re commands = after floats (commands.filterMap Command.call?) := by
  induction commands using List.reverseRecOn with
  | nil => rfl
  | append_singleton commands command ih =>
    rw [afterAll, List.foldl_append, ← afterAll, List.foldl_cons, List.foldl_nil, process_file, ih,
      List.filterMap_append, List.filterMap_cons]
    cases command.call? with
    | none => exact congrArg (after floats) (List.append_nil _).symm
    | some call => exact (after_snoc _ call).symm

theorem afterAll_holds (hfloats : Lawful floats) (re : Re) (commands : List (Command F)) :
    Holds floats (added commands) (afterAll floats re commands) := by
  rw [afterAll_eq]
  exact after_holds hfloats _

theorem Holds.load (h : Holds floats cat file) : Database.load floats file = some cat.database := h

section Catalogues

variable {re : Re} {fields : Option (List Str)}

theorem process_printItems (h : Holds floats cat file) (name : Option Str) :
    process floats re file (.printItems cls name fields) =
      (file, (searched re name).elim ⟨[], .raised⟩ fun search =>
        printRecords floats (some search) fields ((cat.items cls).map Item.record)) := by
  rw [process, h.load, ← printItems_eq]

theorem process_printItem (h : Holds floats cat file) (names : List Str) :
    process floats re file (.printItem cls names fields) =
      (file, printItem floats cat.database cls fields names) := by
  rw [process, h.load]

theorem process_addItem (h : Holds floats cat file) (call : Call F) :
    process floats re file (.addItem call) =
      (run floats file call, addOutcome floats cat.database call) := by
  rw [process, h.load]

end Catalogues

/-- Values that are printed one a line. -/
theorem texts_lines (hfloats : Lawful floats) (vs : List (Json F)) :
    texts floats none vs = Lib.Line.unlines (vs.map (Lib.Json.line hfloats)) := by
  rw [Lib.Line.unlines, List.flatMap_map]
  rfl

/-- **What is added comes back from what is printed.** After any processes `print_items` writes one
line for each item of the class that its pattern finds, in the order in which they were added, and
`print_item` a text for the first item of each name, up to a name that has none, and all of them are
read back as the fields that were asked for. Where the class does not have such a field `print_items`
prints nothing. The file is left as it is. -/
theorem prints_catalogue (hfloats : Lawful floats) (re : Re) (commands : List (Command F)) (cls : Cls)
    (fields : Option (List Str)) (name : Option Str) (search : Str → Bool)
    (hname : searched re name = some search) :
    (cls.Has fields →
      (∃ lines : List (Lib.Line '\n'),
        process floats re (afterAll floats re commands) (.printItems cls name fields) =
          (afterAll floats re commands, ⟨Lib.Line.unlines lines, .success⟩)
        ∧ lines.map (fun l : Lib.Line '\n' => Json.loads floats l.val) =
          (((added commands).items cls).filter fun i => search i.name).map fun i =>
            some (i.shown fields))
      ∧ ∀ names, ∃ printed : List (List Char),
        process floats re (afterAll floats re commands) (.printItem cls names fields) =
          (afterAll floats re commands,
            ⟨printed.flatMap (· ++ ['\n']), (added commands).ending cls names⟩)
        ∧ printed.map (Json.loads floats) =
          ((added commands).firsts cls names).map fun i => some (i.shown fields))
    ∧ (¬ cls.Has fields →
      process floats re (afterAll floats re commands) (.printItems cls name fields) =
        (afterAll floats re commands, ⟨[],
          if ((added commands).items cls).any fun i => search i.name then .raised else .success⟩)) := by
  have hholds := afterAll_holds hfloats re commands
  have hcls : ∀ i ∈ (added commands).items cls, i.cls = cls := fun i hi => cls_of_mem_items hi
  refine ⟨fun hfields => ⟨?_, fun names => ?_⟩, fun hfields => ?_⟩
  · refine ⟨((((added commands).items cls).filter fun i => search i.name).map (·.shown fields)).map
      (Lib.Json.line hfloats), ?_, ?_⟩
    · rw [process_printItems hholds, hname, Option.elim_some, printRecords_has hcls hfields,
        texts_lines hfloats]
    · rw [List.map_map, List.map_map]
      exact List.map_congr_left fun i _ => Lib.Json.loads_write hfloats (keyed_shown i fields)
  · refine ⟨(((added commands).firsts cls names).map (·.shown fields)).map
      (Json.dumps floats (some 2) false), ?_, ?_⟩
    · rw [process_printItem hholds, printItem_eq hfields, List.flatMap_map]
      rfl
    · rw [List.map_map, List.map_map]
      exact List.map_congr_left fun i _ => Lib.Json.loads_write hfloats (keyed_shown i fields)
  · rw [process_printItems hholds, hname, Option.elim_some, printRecords_unknown hcls hfields]

/-- Patterns without special characters, which are found where they stand. -/
def literally : Re := fun pattern => some fun name => name.points.tails.any pattern.points.isPrefixOf

/-- The three processes. -/
def threeCommands : List (Command Bool) := threeCalls.map .addItem

theorem prints_catalogue_three : ∃ lines : List (Lib.Line '\n'),
    process oneAndAHalf literally (afterAll oneAndAHalf literally threeCommands)
        (.printItems .supplement (some (text "in")) (some [text "inc", text "name", text "inc"])) =
      (afterAll oneAndAHalf literally threeCommands, ⟨Lib.Line.unlines lines, .success⟩)
    ∧ lines.map (fun l : Lib.Line '\n' => Json.loads oneAndAHalf l.val) =
      [some (.obj [(text "inc", words [text "d"]), (text "name", .str (text "zinc"))])] := by
  have hfields : Cls.Has .supplement (some [text "inc", text "name", text "inc"]) := by
    unfold Cls.Has
    decide +kernel
  obtain ⟨lines, hprocess, hlines⟩ :=
    ((prints_catalogue oneAndAHalf_lawful literally threeCommands .supplement
      (some [text "inc", text "name", text "inc"]) (some (text "in")) _ rfl).1 hfields).1
  exact ⟨lines, hprocess, hlines⟩

/-! ## Dry runs -/

theorem addOutcome_dry (db : Database F) (item : Item F) :
    addOutcome floats db ⟨item, true⟩ = ⟨printed floats none (item.shown none), .success⟩ := by
  rw [addOutcome, load_item, ← serialize_shown]
  rfl

theorem addOutcome_real (db : Database F) (item : Item F) :
    addOutcome floats db ⟨item, false⟩ =
      ⟨[], if (addItem db ⟨item, false⟩).isSome then .success else .raised⟩ := by
  rw [addOutcome, load_item]
  cases h : addItem db ⟨item, false⟩ with
  | none => simp
  | some db' => simp

/-- An accepted item is behind the others of its class. -/
theorem items_add (h : cat.Accepts ⟨item, false⟩) (cls : Cls) :
    (cat.add ⟨item, false⟩).items cls = cat.items cls ++ if cls = item.cls then [item] else [] := by
  cases item with
  | supplement args =>
    have hadd : cat.add ⟨.supplement args, false⟩ = cat.addSupplement args := rfl
    rw [hadd]
    cases cls with
    | supplement => exact List.map_append
    | list => exact (List.append_nil _).symm
  | list args =>
    have hadd : cat.add ⟨.list args, false⟩ = cat.addList args h.2 := dif_pos h.2
    rw [hadd]
    cases cls with
    | supplement => exact (List.append_nil _).symm
    | list => exact List.map_append

/-- What `print_items` writes of all fields. -/
theorem stdout_printItems (h : Holds floats cat file) {re : Re} {name : Option Str}
    {search : Str → Bool} (hname : searched re name = some search) (cls : Cls) :
    (process floats re file (.printItems cls name none)).2.stdout =
      texts floats none (((cat.items cls).filter fun i => search i.name).map (·.shown none)) := by
  have hcls : ∀ i ∈ cat.items cls, i.cls = cls := fun i hi => cls_of_mem_items hi
  rw [process_printItems h, hname, Option.elim_some, printRecords_has hcls (has_none cls)]

/-- **A dry run shows what the real one adds.** After any processes it leaves the file alone and
writes a line. Where the item is accepted, the real run writes nothing, and afterwards `print_items`
writes what it wrote before and this line behind it, in the item's class and where its pattern finds
the name; else the real run ends in an exception and leaves the file alone as well. -/
theorem dry_run_shows (hfloats : Lawful floats) (re : Re) (commands : List (Command F))
    (item : Item F) : ∃ line : Lib.Line '\n',
      process floats re (afterAll floats re commands) (.addItem ⟨item, true⟩) =
        (afterAll floats re commands, ⟨line.val ++ ['\n'], .success⟩)
      ∧ Json.loads floats line.val = some (item.shown none)
      ∧ ((added commands).Accepts ⟨item, false⟩ → ∃ file,
        process floats re (afterAll floats re commands) (.addItem ⟨item, false⟩) =
          (some file, ⟨[], .success⟩)
        ∧ ∀ cls name search, searched re name = some search →
          (process floats re (some file) (.printItems cls name none)).2.stdout =
            (process floats re (afterAll floats re commands) (.printItems cls name none)).2.stdout
              ++ if cls = item.cls ∧ search item.name = true then line.val ++ ['\n'] else [])
      ∧ (¬ (added commands).Accepts ⟨item, false⟩ →
        process floats re (afterAll floats re commands) (.addItem ⟨item, false⟩) =
          (afterAll floats re commands, ⟨[], .raised⟩)) := by
  have hholds := afterAll_holds hfloats re commands
  refine ⟨Lib.Json.line hfloats (item.shown none), ?_,
    Lib.Json.loads_write hfloats (keyed_shown item none), fun haccepts => ?_, fun hrejected => ?_⟩
  · have hdry : ¬ (added commands).Accepts ⟨item, true⟩ := fun h => Bool.noConfusion h.1
    rw [process_addItem hholds, run_rejected hholds hdry, addOutcome_dry]
    rfl
  · have hafter := run_accepted hfloats hholds haccepts
    have hrun : run floats (afterAll floats re commands) ⟨item, false⟩ =
        some (((added commands).add ⟨item, false⟩).database.dump floats) := by
      rw [run, hholds.load]
      simp only [addItem_accepted haccepts]
    refine ⟨((added commands).add ⟨item, false⟩).database.dump floats, ?_,
      fun cls name search hname => ?_⟩
    · rw [process_addItem hholds, hrun, addOutcome_real, addItem_accepted haccepts]
      rfl
    · rw [hrun] at hafter
      rw [stdout_printItems hafter hname, stdout_printItems hholds hname, items_add haccepts,
        List.filter_append, List.map_append, texts, List.flatMap_append, ← texts]
      congr 1
      by_cases hcls : cls = item.cls
      · rw [if_pos hcls]
        by_cases hfound : search item.name = true
        · have hfilter : [item].filter (fun i => search i.name) = [item] :=
            List.filter_cons_of_pos hfound
          rw [if_pos ⟨hcls, hfound⟩, hfilter]
          exact List.append_nil _
        · have hfilter : [item].filter (fun i => search i.name) = [] :=
            List.filter_cons_of_neg hfound
          rw [if_neg fun h => hfound h.2, hfilter]
          rfl
      · rw [if_neg hcls, if_neg fun h => hcls h.1]
        rfl
  · rw [process_addItem hholds, run_rejected hholds hrejected, addOutcome_real,
      (addItem_rejected hrejected).1]
    rfl

/-- A list that would be rejected is shown all the same. -/
theorem dry_run_shows_rejected : ∃ line : Lib.Line '\n',
    process oneAndAHalf literally (afterAll oneAndAHalf literally threeCommands)
        (.addItem ⟨.list ⟨text "other", [text "iron"], none⟩, true⟩) =
      (afterAll oneAndAHalf literally threeCommands, ⟨line.val ++ ['\n'], .success⟩)
    ∧ process oneAndAHalf literally (afterAll oneAndAHalf literally threeCommands)
        (.addItem ⟨.list ⟨text "other", [text "iron"], none⟩, false⟩) =
      (afterAll oneAndAHalf literally threeCommands, ⟨[], .raised⟩) := by
  obtain ⟨line, hdry, -, -, hrejected⟩ := dry_run_shows oneAndAHalf_lawful literally threeCommands
    (.list ⟨text "other", [text "iron"], none⟩)
  exact ⟨line, hdry, hrejected (by decide +kernel)⟩

end Holchain.Bin.Supp
