import Holchain.Laws.Supp

/-!
# Laws.SuppNames — items and their names

An item is stored behind the others of its class, whatever their names, and a name leads to the first
item that has it (`add_stores`). So an item is found by its name where none of its class had the name
before; and where this holds of every item that is added, names are different and every item is found
(`items_are_found`).
-/

namespace Holchain.Bin.Supp

open Lib (Str Json Floats text System)
open Lib.Json (Lawful)

variable {F : Type} {floats : Floats F} {db db' : Database F} {item : Item F} {cls : Cls}

/-! ## Adding and looking up -/

/-- The item that is stored. -/
def Item.record : Item F → Record F
  | .supplement args => .supplement args.record
  | .list args => .list args.record

theorem name_record (item : Item F) : item.record.name = .str item.name := by
  cases item with
  | supplement args => rfl
  | list args => rfl

/-- An item is stored behind the others of its class. -/
theorem getItems_addItem (h : db.addItem item = some db') (cls : Cls) :
    db'.getItems cls =
      if cls = item.cls then db.getItems cls ++ [item.record] else db.getItems cls := by
  cases item with
  | supplement args =>
    cases h
    cases cls with
    | supplement => exact List.map_append
    | list => rfl
  | list args =>
    have hadded : (if db.validate (args.record : SupplementList F) then
        some { db with supplementLists := db.supplementLists ++ [args.record] } else none)
          = some db' := h
    obtain ⟨-, hdb⟩ := Option.ite_none_right_eq_some.mp hadded
    cases hdb
    cases cls with
    | supplement => rfl
    | list => exact List.map_append

/-- The record has this name. -/
def Record.isNamed (name : Str) (r : Record F) : Bool := Database.isNamed name r.name

theorem Record.isNamed_iff {name : Str} {r : Record F} :
    r.isNamed name = true ↔ r.name = .str name := by
  refine ⟨isNamed_eq, fun h => ?_⟩
  unfold Record.isNamed
  rw [h]
  exact beq_self_eq_true name

/-- A name leads to the first item that has it. -/
theorem getItem_eq (db : Database F) (cls : Cls) (name : Str) :
    db.getItem cls name = (db.getItems cls).find? (Record.isNamed name) := by
  cases cls with
  | supplement =>
    rw [Database.getItems, List.find?_map]
    rfl
  | list =>
    rw [Database.getItems, List.find?_map]
    rfl

/-- So to the new item only where it led to none. -/
theorem getItem_addItem (h : db.addItem item = some db') : db'.getItem item.cls item.name =
    some ((db.getItem item.cls item.name).getD item.record) := by
  have hnamed : item.record.isNamed item.name = true := Record.isNamed_iff.mpr (name_record item)
  rw [getItem_eq, getItems_addItem h, if_pos rfl, List.find?_append, ← getItem_eq,
    List.find?_cons_of_pos hnamed]
  cases db.getItem item.cls item.name with
  | none => rfl
  | some r => rfl

/-- The names of a class. -/
def Database.names (db : Database F) (cls : Cls) : List (Json F) := (db.getItems cls).map Record.name

theorem getItem_none {name : Str} (h : .str name ∉ db.names cls) : db.getItem cls name = none := by
  rw [getItem_eq, List.find?_eq_none]
  intro r hr hnamed
  exact h (Record.isNamed_iff.mp hnamed ▸ List.mem_map_of_mem hr)

/-- Where names are different, every item is found. -/
theorem getItem_of_nodup {name : Str} {r : Record F} (h : (db.names cls).Nodup)
    (hr : r ∈ db.getItems cls) (hname : r.name = .str name) : db.getItem cls name = some r := by
  rw [getItem_eq]
  cases hfind : (db.getItems cls).find? (Record.isNamed name) with
  | none => exact absurd (Record.isNamed_iff.mpr hname) (List.find?_eq_none.mp hfind r hr)
  | some r' =>
    have hsame : r'.name = r.name :=
      (Record.isNamed_iff.mp (List.find?_some hfind)).trans hname.symm
    rw [List.inj_on_of_nodup_map h (List.mem_of_find?_eq_some hfind) hr hsame]

/-- What `add_item` does with a name. -/
structure Stores (db : Database F) (item : Item F) (db' : Database F) : Prop where
  /-- the item is behind the others of its class -/
  items (cls : Cls) : db'.getItems cls =
    if cls = item.cls then db.getItems cls ++ [item.record] else db.getItems cls
  /-- the name leads where it did, or else to the item -/
  found : db'.getItem item.cls item.name =
    some ((db.getItem item.cls item.name).getD item.record)
  new : .str item.name ∉ db.names item.cls → db'.getItem item.cls item.name = some item.record

theorem add_stores (h : db.addItem item = some db') : Stores db item db' where
  items := getItems_addItem h
  found := getItem_addItem h
  new hnew := by
    rw [getItem_addItem h, getItem_none hnew]
    rfl

/-! ## Runs -/

/-- What is added has a name that is new in its class. -/
def Fresh (s : Session F) : Operation F → Prop
  | .addItem item => ∀ db, s.db = some db → .str item.name ∉ db.names item.cls
  | _ => True

/-- No two items of a class have one name. -/
def Distinct (db : Database F) : Prop := ∀ cls, (db.names cls).Nodup

theorem distinct_empty : Distinct (Catalogue.empty : Catalogue F).database := by
  intro cls
  cases cls with
  | supplement => exact List.nodup_nil
  | list => exact List.nodup_nil

theorem distinct_addItem (hdb : Distinct db) (h : db.addItem item = some db')
    (hnew : .str item.name ∉ db.names item.cls) : Distinct db' := by
  intro cls
  unfold Database.names
  rw [getItems_addItem h]
  split
  · next heq =>
    rw [List.map_append, List.map_singleton, name_record, heq]
    exact List.nodup_append.mpr ⟨hdb item.cls, List.nodup_singleton _,
      fun name hname name' hname' heq => hnew (List.mem_singleton.mp hname' ▸ heq ▸ hname)⟩
  · exact hdb cls

/-- A database has the items of a catalogue, with different names. -/
structure Sound (db : Database F) : Prop where
  catalogue : ∃ cat : Catalogue F, db = cat.database
  distinct : Distinct db

theorem Sound.addItem (hdb : Sound db) (hnew : .str item.name ∉ db.names item.cls) :
    Sound ((db.addItem item).getD db) := by
  obtain ⟨cat, rfl⟩ := hdb.catalogue
  by_cases hcall : cat.Accepts ⟨item, false⟩
  · have hadd : cat.database.addItem item = some (cat.add ⟨item, false⟩).database :=
      addItem_accepted hcall
    rw [hadd]
    exact ⟨⟨_, rfl⟩, distinct_addItem hdb.distinct hadd hnew⟩
  · have hadd : cat.database.addItem item = none := (addItem_rejected hcall).1
    rw [hadd]
    exact hdb

/-- What is in the file, and what is in the process. -/
structure Kept (floats : Floats F) (s : Session F) : Prop where
  file : ∃ db, Database.load floats s.file = some db ∧ Sound db
  process : ∀ db, s.db = some db → Sound db

theorem Kept.step (hfloats : Lawful floats) {s t : Session F} {op : Operation F}
    (hs : Kept floats s) (hop : Fresh s op) (h : s.step floats op = some t) : Kept floats t := by
  cases op with
  | load =>
    obtain ⟨db, hload, hsound⟩ := hs.file
    obtain ⟨db', hdb', ht⟩ := Option.bind_eq_some_iff.mp h
    cases ht
    refine ⟨hs.file, fun db'' hdb'' => ?_⟩
    cases hload.symm.trans hdb'
    cases hdb''
    exact hsound
  | addItem item =>
    obtain ⟨db, hdb, ht⟩ := Option.bind_eq_some_iff.mp h
    cases ht
    refine ⟨hs.file, fun db'' hdb'' => ?_⟩
    cases hdb''
    exact (hs.process db hdb).addItem (hop db hdb)
  | dump =>
    obtain ⟨db, hdb, ht⟩ := Option.bind_eq_some_iff.mp h
    cases ht
    have hsound := hs.process db hdb
    obtain ⟨cat, hcat⟩ := hsound.catalogue
    refine ⟨⟨db, ?_, hsound⟩, hs.process⟩
    rw [hcat]
    exact load_database hfloats cat

theorem kept_of_reach (hfloats : Lawful floats) {s : Session F}
    (h : (sessions floats).Reach Fresh s) : Kept floats s := by
  apply System.Reach.invariant _ _ h
  · intro s hs
    cases hs
    exact ⟨⟨_, rfl, ⟨Catalogue.empty, rfl⟩, distinct_empty⟩, fun db hdb => nomatch hdb⟩
  · exact fun s t op hs hop hstep => hs.step hfloats hop hstep

theorem name_of_mem {cat : Catalogue F} {r : Record F} (h : r ∈ cat.database.getItems cls) :
    ∃ name, r.name = .str name := by
  cases cls with
  | supplement =>
    obtain ⟨s, hs, rfl⟩ := List.mem_map.mp h
    obtain ⟨args, -, rfl⟩ := List.mem_map.mp hs
    exact ⟨args.name, rfl⟩
  | list =>
    obtain ⟨l, hl, rfl⟩ := List.mem_map.mp h
    obtain ⟨args, -, rfl⟩ := List.mem_map.mp hl
    exact ⟨args.name, rfl⟩

/-- **Items are found by their names**: one that is added leads where its name did before, or to
itself; and if every one is added under a new name, each stored item is found by its own. -/
theorem items_are_found (hfloats : Lawful floats) (s : Session F) (db : Database F)
    (hdb : s.db = some db) :
    (∀ item db', db.addItem item = some db' → Stores db item db')
      ∧ ((sessions floats).Reach Fresh s → Distinct db
        ∧ ∀ cls, ∀ r ∈ db.getItems cls, ∃ name, r.name = .str name
          ∧ db.getItem cls name = some r) := by
  refine ⟨fun item db' h => add_stores h, fun hreach => ?_⟩
  have hsound := (kept_of_reach hfloats hreach).process db hdb
  refine ⟨hsound.distinct, fun cls r hr => ?_⟩
  obtain ⟨cat, hcat⟩ := hsound.catalogue
  obtain ⟨name, hname⟩ := name_of_mem (hcat ▸ hr)
  exact ⟨name, hname, getItem_of_nodup (hsound.distinct cls) hr hname⟩

/-- A supplement with this name and this effect. -/
def supplement (name effect : String) : Item Bool :=
  .supplement ⟨text name, true, true, [text effect], [], [], none, [], []⟩

/-- The database with one supplement. -/
def zinc : Database Bool := (Catalogue.empty.add ⟨supplement "zinc" "d", false⟩).database

theorem zinc_reach : (sessions oneAndAHalf).Reach Fresh ⟨none, some zinc⟩ := by
  have hloaded : (sessions oneAndAHalf).Reach Fresh ⟨none, some Catalogue.empty.database⟩ :=
    .step (l := .load) (.init rfl) trivial rfl
  refine .step (l := .addItem (supplement "zinc" "d")) hloaded (fun db hdb => ?_) rfl
  cases hdb
  exact List.not_mem_nil

theorem items_are_found_zinc : Distinct zinc
    ∧ zinc.getItem .supplement (text "zinc") = some (supplement "zinc" "d").record := by
  obtain ⟨hdistinct, hfound⟩ :=
    (items_are_found oneAndAHalf_lawful ⟨none, some zinc⟩ zinc rfl).2 zinc_reach
  obtain ⟨name, hname, hget⟩ := hfound .supplement (supplement "zinc" "d").record (.head _)
  cases hname
  exact ⟨hdistinct, hget⟩

/-- A second supplement of the name is stored, and the first one is found. -/
theorem second_is_not_found : ∃ db,
    (sessions oneAndAHalf).Reachable ⟨none, some zinc⟩
      ∧ zinc.addItem (supplement "zinc" "k") = some db
      ∧ db.getItem .supplement (text "zinc") = some (supplement "zinc" "d").record
      ∧ (supplement "zinc" "d").record ≠ (supplement "zinc" "k").record
      ∧ (supplement "zinc" "k").record ∈ db.getItems .supplement ∧ ¬ Distinct db := by
  have hadd : zinc.addItem (supplement "zinc" "k") =
      some ⟨zinc.supplements ++ [_], zinc.supplementLists⟩ := rfl
  refine ⟨_, zinc_reach.reachable, hadd, getItem_addItem hadd, fun heq => ?_, ?_, fun h => ?_⟩
  · have hinc := congrArg Supplement.inc (Record.supplement.inj heq)
    have heffect : text "d" = text "k" :=
      Lib.Json.str.inj (List.cons.inj (Lib.Json.arr.inj hinc)).1
    exact absurd heffect (by decide +kernel)
  · rw [getItems_addItem hadd]
    exact List.mem_append_right _ (.head _)
  · have hnames := h .supplement
    unfold Database.names at hnames
    have hcls : Cls.supplement = (supplement "zinc" "k").cls := rfl
    rw [getItems_addItem hadd, if_pos hcls] at hnames
    exact (List.nodup_cons.mp hnames).1 (.head _)

end Holchain.Bin.Supp
