import Mathlib.Data.List.Forall2
import Mathlib.Data.List.Nodup
import Mathlib.Data.List.Pairwise
import Holchain.Lib.Walk
import Holchain.Holper.Command

/-!
# Laws.Command — what `validate` accepts, and what a command line resolves to

`validate` returns normally exactly on trees in which, at every node, the children's names are
all different and there is an action exactly when there are no children (`validate_eq_ok_iff`).

In such a tree first-match lookup is lookup: a token leads to the one child it names
(`getChild_eq_some_iff`). So resolving is the greedy walk of `Lib.Walk` along the edges that the
names spell, and it does not see the order of children or names, nor which of its names a child
is called by.
-/

namespace Holchain.Holper

open Holchain.Lib
open Std (TreeSet)
open CommandManager (resolveCommand)

namespace Command

/-- The nodes of a tree. -/
inductive Node (root : Command) : Command → Prop
  | root : Node root root
  | child {c d : Command} : Node root c → d ∈ c.children → Node root d

/-- No name occurs twice among the names of the children. -/
def UniqueNames (c : Command) : Prop := (c.children.flatMap names).Nodup

/-- There is an action exactly when there are no children. -/
def ActionIffLeaf (c : Command) : Prop := c.action.isSome ↔ c.children = []

/-- The two rules, at every node. -/
inductive Valid : Command → Prop
  | intro {c : Command} : c.UniqueNames → c.ActionIffLeaf → (∀ d ∈ c.children, Valid d) → Valid c

theorem Valid.uniqueNames {c : Command} : c.Valid → c.UniqueNames
  | .intro h _ _ => h

theorem Valid.actionIffLeaf {c : Command} : c.Valid → c.ActionIffLeaf
  | .intro _ h _ => h

theorem Valid.children {c d : Command} (h : c.Valid) (hd : d ∈ c.children) : d.Valid := by
  cases h with
  | intro _ _ hall => exact hall d hd

theorem Valid.node {c d : Command} (h : c.Valid) (hd : c.Node d) : d.Valid := by
  induction hd with
  | root => exact h
  | child _ hd ih => exact ih.children hd

/-! ## Validation -/

/-- The loop over the names finds none exactly when they are new and all different. -/
theorem reusedName_eq_none {seen : TreeSet Bytes} {l : List Bytes} :
    reusedName seen l = none ↔ l.Nodup ∧ ∀ name ∈ l, name ∉ seen := by
  induction l generalizing seen with
  | nil => simp [reusedName]
  | cons name rest ih =>
    unfold reusedName
    by_cases h : seen.contains name
    · have hmem : name ∈ seen := TreeSet.mem_iff_contains.mpr h
      simp [h, hmem]
    · have hnot : name ∉ seen := fun hmem => h (TreeSet.mem_iff_contains.mp hmem)
      simp only [h, Bool.false_eq_true, ↓reduceIte, ih, TreeSet.mem_insert,
        Std.LawfulEqOrd.compare_eq_iff_eq, not_or, List.nodup_cons, List.mem_cons,
        forall_eq_or_imp]
      constructor
      · intro h
        obtain ⟨hnd, hall⟩ := h
        exact ⟨⟨fun hin => (hall name hin).1 rfl, hnd⟩, hnot, fun n hn => (hall n hn).2⟩
      · intro h
        obtain ⟨⟨hnotin, hnd⟩, -, hall⟩ := h
        exact ⟨hnd, fun n hn => ⟨fun heq => hnotin (heq ▸ hn), hall n hn⟩⟩

theorem reusedName_empty {l : List Bytes} : reusedName ∅ l = none ↔ l.Nodup := by
  rw [reusedName_eq_none]
  simp

mutual

/-- `validate` returns normally exactly on valid trees. -/
theorem validate_eq_ok : ∀ c : Command, c.validate = .ok () ↔ c.Valid
  | ⟨self, names, primaryName, description, action, children⟩ => by
    have hall := validateAll_eq_ok children
    rw [validate]
    cases hr : reusedName ∅ (children.flatMap Command.names) with
    | some name =>
      simp only [reduceCtorEq, false_iff]
      intro hv
      have : reusedName ∅ (children.flatMap Command.names) = none :=
        reusedName_empty.mpr hv.uniqueNames
      rw [hr] at this
      cases this
    | none =>
      have hunique : UniqueNames ⟨self, names, primaryName, description, action, children⟩ :=
        reusedName_empty.mp hr
      by_cases hleaf : ActionIffLeaf ⟨self, names, primaryName, description, action, children⟩
      · have hcheck : (children.isEmpty != action.isSome) = false := by
          unfold ActionIffLeaf at hleaf
          cases action <;> cases children <;> simp_all
        simp only [hcheck, Bool.false_eq_true, ↓reduceIte, hall]
        exact ⟨fun h => .intro hunique hleaf h, fun hv d hd => hv.children hd⟩
      · have hcheck : (children.isEmpty != action.isSome) = true := by
          unfold ActionIffLeaf at hleaf
          cases action <;> cases children <;> simp_all
        simp only [hcheck, ↓reduceIte, reduceCtorEq, false_iff]
        exact fun hv => hleaf hv.actionIffLeaf

/-- The loop over the children returns normally exactly when each of them is valid. -/
theorem validateAll_eq_ok : ∀ cs : List Command, validateAll cs = .ok () ↔ ∀ c ∈ cs, c.Valid
  | [] => by simp [validateAll]
  | c :: cs => by
    have hc := validate_eq_ok c
    have hcs := validateAll_eq_ok cs
    rw [validateAll, List.forall_mem_cons, ← hc, ← hcs]
    cases c.validate with
    | error e => simp [Except.bind]
    | ok u => simp [Except.bind]

end

/-- **`validate` returns normally exactly when the two rules hold at every node.** -/
theorem validate_eq_ok_iff (root : Command) :
    root.validate = .ok () ↔ ∀ c, root.Node c → c.UniqueNames ∧ c.ActionIffLeaf := by
  rw [validate_eq_ok]
  refine ⟨fun h c hc => ⟨(h.node hc).uniqueNames, (h.node hc).actionIffLeaf⟩, fun h => ?_⟩
  -- every node of a tree whose nodes keep the rules is valid, from the leaves up
  have sub : ∀ n (c : Command), sizeOf c ≤ n → root.Node c → c.Valid := by
    intro n
    induction n with
    | zero =>
      intro c hsize _
      cases c
      simp at hsize
    | succ n ih =>
      intro c hsize hc
      refine .intro (h c hc).1 (h c hc).2 fun d hd => ih d ?_ (.child hc hd)
      have hlt := List.sizeOf_lt_of_mem hd
      cases c
      simp only [Command.mk.sizeOf_spec] at hsize
      simp only at hlt
      omega
  exact sub _ root (Nat.le_refl _) .root

/-! ## Lookup -/

/-- The token is a name of the child. -/
def Edge (c : Command) (token : Bytes) (d : Command) : Prop := d ∈ c.children ∧ token ∈ d.names

/-- Children of different names: a token names at most one of them. -/
theorem UniqueNames.edge_unique {c d e : Command} {token : Bytes} (h : c.UniqueNames)
    (hd : c.Edge token d) (he : c.Edge token e) : d = e := by
  by_contra hne
  have hsymm : Std.Symm (Function.onFun List.Disjoint names) := ⟨fun _ _ hab _ h1 h2 => hab h2 h1⟩
  exact (List.nodup_flatMap.mp h).2.forall hd.1 he.1 hne hd.2 he.2

/-- **First-match lookup is lookup**: a token leads to the child it names. -/
theorem getChild_eq_some_iff {c d : Command} {token : Bytes} (h : c.UniqueNames) :
    c.getChild token = some d ↔ c.Edge token d := by
  unfold getChild
  refine ⟨fun hf => ⟨List.mem_of_find?_eq_some hf, ?_⟩, fun hd => ?_⟩
  · simpa using List.find?_some hf
  · refine find?_eq_some_of_unique (fun x hx y hy hpx hpy => ?_) hd.1 (by simpa using hd.2)
    exact h.edge_unique ⟨hx, by simpa using hpx⟩ ⟨hy, by simpa using hpy⟩

theorem Valid.getChild_iff (c : Command) (token : Bytes) (d : Command) (h : c.Valid) :
    c.getChild token = some d ↔ c.Edge token d :=
  getChild_eq_some_iff h.uniqueNames

theorem Valid.edge (c : Command) (token : Bytes) (d : Command) (h : c.Valid)
    (hd : c.Edge token d) : d.Valid :=
  h.children hd.1

theorem Valid.path {c d : Command} {tokens : List Bytes} (h : c.Valid)
    (hp : Path Edge c tokens d) : d.Valid := by
  induction hp with
  | nil => exact h
  | cons he _ ih => exact ih (h.children he.1)

/-- A command with an action has no children to go on to. -/
theorem Valid.no_edge {c : Command} {action : Action} (h : c.Valid)
    (haction : c.action = some action) (token : Bytes) (d : Command) : ¬ c.Edge token d := by
  intro hd
  have hleaf : c.children = [] := h.actionIffLeaf.mp (by rw [haction]; rfl)
  rw [Edge, hleaf] at hd
  cases hd.1

/-- Resolving is the greedy walk. -/
theorem resolveCommand_eq_walk (c : Command) (tokens : List Bytes) :
    resolveCommand c tokens = walk getChild c tokens := by
  induction tokens generalizing c with
  | nil => rfl
  | cons token rest ih =>
    rw [resolveCommand, walk]
    cases c.getChild token with
    | none => rfl
    | some child => exact ih child

/-! ## Rearranging a tree -/

/-- The second tree is the first one with the children of any node and the names of any node in
another order. The objects are the same ones: their addresses are kept. -/
inductive Rearranged : Command → Command → Prop
  | intro {c c' : Command} {mid : List Command} :
      c'.self = c.self → c'.primaryName = c.primaryName → c'.description = c.description →
      c'.action = c.action → c.names.Perm c'.names → List.Forall₂ Rearranged c.children mid →
      mid.Perm c'.children → Rearranged c c'

theorem Rearranged.self_eq {c c' : Command} : Rearranged c c' → c'.self = c.self
  | .intro h _ _ _ _ _ _ => h

theorem Rearranged.names_perm {c c' : Command} : Rearranged c c' → c.names.Perm c'.names
  | .intro _ _ _ _ h _ _ => h

/-- Related lists: every element has its counterpart. -/
theorem exists_right_of_forall₂ {α β : Type*} {R : α → β → Prop} {l : List α} {m : List β}
    (h : List.Forall₂ R l m) {a : α} (ha : a ∈ l) : ∃ b ∈ m, R a b := by
  obtain ⟨hlength, hall⟩ := List.forall₂_iff_get.mp h
  obtain ⟨i, rfl⟩ := List.mem_iff_get.mp ha
  exact ⟨m.get ⟨i, hlength ▸ i.isLt⟩, List.get_mem _ _, hall i i.isLt _⟩

theorem exists_left_of_forall₂ {α β : Type*} {R : α → β → Prop} {l : List α} {m : List β}
    (h : List.Forall₂ R l m) {b : β} (hb : b ∈ m) : ∃ a ∈ l, R a b := by
  obtain ⟨a, ha, hr⟩ := exists_right_of_forall₂ h.flip hb
  exact ⟨a, ha, hr⟩

/-- Rearranging keeps the names of the children, as a whole. -/
theorem names_perm_of_forall₂ {l m : List Command} (h : List.Forall₂ Rearranged l m) :
    (l.flatMap names).Perm (m.flatMap names) := by
  induction h with
  | nil => exact .nil
  | cons hab _ ih =>
    simp only [List.flatMap_cons]
    exact hab.names_perm.append ih

theorem Rearranged.uniqueNames {c c' : Command} (h : Rearranged c c') (hu : c.UniqueNames) :
    c'.UniqueNames := by
  cases h with
  | intro _ _ _ _ _ hmid hperm =>
    exact ((names_perm_of_forall₂ hmid).trans (hperm.flatMap_right names)).nodup hu

/-- The counterpart of a child that the token names. -/
theorem Rearranged.edge {c c' d : Command} {token : Bytes} (h : Rearranged c c')
    (hd : c.Edge token d) : ∃ d', c'.Edge token d' ∧ Rearranged d d' := by
  cases h with
  | intro _ _ _ _ _ hmid hperm =>
    obtain ⟨d', hd', hr⟩ := exists_right_of_forall₂ hmid hd.1
    exact ⟨d', ⟨hperm.mem_iff.mp hd', hr.names_perm.mem_iff.mp hd.2⟩, hr⟩

/-- A child of the rearranged tree has its counterpart. -/
theorem Rearranged.edge_left {c c' d' : Command} {token : Bytes} (h : Rearranged c c')
    (hd : c'.Edge token d') : ∃ d, c.Edge token d ∧ Rearranged d d' := by
  cases h with
  | intro _ _ _ _ _ hmid hperm =>
    obtain ⟨d, hd', hr⟩ := exists_left_of_forall₂ hmid (hperm.mem_iff.mpr hd.1)
    exact ⟨d, ⟨hd', hr.names_perm.mem_iff.mpr hd.2⟩, hr⟩

/-- **Resolving does not see the order of children or names.** -/
theorem Rearranged.resolveCommand {c c' : Command} (h : Rearranged c c') (hv : c.Valid)
    (tokens : List Bytes) :
    Rearranged (resolveCommand c tokens) (CommandManager.resolveCommand c' tokens) := by
  induction tokens generalizing c c' with
  | nil => exact h
  | cons token rest ih =>
    have hu' := h.uniqueNames hv.uniqueNames
    cases hc : c.getChild token with
    | some d =>
      have hd := (getChild_eq_some_iff hv.uniqueNames).mp hc
      obtain ⟨d', hd', hr⟩ := h.edge hd
      have hc' := (getChild_eq_some_iff hu').mpr hd'
      simp only [CommandManager.resolveCommand, hc, hc']
      exact ih hr (hv.children hd.1)
    | none =>
      cases hc' : c'.getChild token with
      | none =>
        simp only [CommandManager.resolveCommand, hc, hc']
        exact h
      | some d' =>
        obtain ⟨d, hd, -⟩ := h.edge_left ((getChild_eq_some_iff hu').mp hc')
        rw [(getChild_eq_some_iff hv.uniqueNames).mpr hd] at hc
        cases hc

/-! ## Aliases -/

/-- Two words that name the same children, one by one. -/
inductive Aliased : Command → List Bytes → List Bytes → Prop
  | nil (c : Command) : Aliased c [] []
  | cons {c d : Command} {token token' : Bytes} {rest rest' : List Bytes} :
      c.Edge token d → c.Edge token' d → Aliased d rest rest' →
      Aliased c (token :: rest) (token' :: rest')

/-- **Resolving does not see which of its names a child is called by.** -/
theorem Aliased.resolveCommand {c : Command} {pre pre' : List Bytes} (h : Aliased c pre pre')
    (hv : c.Valid) (post : List Bytes) :
    resolveCommand c (pre' ++ post) = CommandManager.resolveCommand c (pre ++ post) := by
  induction h with
  | nil => rfl
  | cons he he' _ ih =>
    have hc := (getChild_eq_some_iff hv.uniqueNames).mpr he
    have hc' := (getChild_eq_some_iff hv.uniqueNames).mpr he'
    simp only [List.cons_append, CommandManager.resolveCommand, hc, hc']
    exact ih (hv.children he.1)

/-- **What `validate` accepts and what then resolves.** The validator accepts a tree exactly when
the two rules hold at every node. In an accepted tree a token list resolves to the end of its
longest prefix that spells a path of names, that node is the only one, it is the same object in
every rearrangement of the tree, and for every other spelling of that prefix. -/
theorem validate_and_resolve (root : Command) :
    (root.validate = .ok () ↔ ∀ c, root.Node c →
      (c.children.flatMap names).Nodup ∧ (c.action.isSome ↔ c.children = []))
    ∧ (root.validate = .ok () → ∀ tokens,
      IsFurthest Edge root tokens (resolveCommand root tokens)
      ∧ (∀ c, IsFurthest Edge root tokens c → c = resolveCommand root tokens)
      ∧ (∀ root', Rearranged root root' →
          (resolveCommand root' tokens).self = (resolveCommand root tokens).self
          ∧ Rearranged (resolveCommand root tokens) (resolveCommand root' tokens))
      ∧ (∀ pre pre' post, tokens = pre ++ post → Aliased root pre pre' →
          resolveCommand root (pre' ++ post) = resolveCommand root tokens)) := by
  refine ⟨validate_eq_ok_iff root, fun hok tokens => ?_⟩
  have hv := (validate_eq_ok root).mp hok
  refine ⟨?_, fun c hc => ?_, fun root' hr => ?_, fun pre pre' post heq ha => ?_⟩
  · rw [resolveCommand_eq_walk]
    exact walk_isFurthest Valid.getChild_iff Valid.edge hv tokens
  · rw [resolveCommand_eq_walk]
    exact hc.eq_walk Valid.getChild_iff Valid.edge hv
  · have hres := hr.resolveCommand hv tokens
    exact ⟨hres.self_eq, hres⟩
  · rw [heq]
    exact ha.resolveCommand hv post

/-- The system group with two of its commands, the second one under two names. -/
def systemGroup : Command :=
  let leaf (self : Nat) (names : List Bytes) : Command :=
    { Command.new self with
      names
      action := some { spec := ⟨[], none⟩, actOn := fun _ _ => .ok (.string (lit "Success")) } }
  (((Command.new 0).setName (lit "system")).addChild (leaf 1 [lit "suspend"])).addChild
    (leaf 2 [lit "shutdown", lit "poweroff"])

/-- In the system group the two names of the second command lead to the same object. -/
theorem validate_and_resolve_system :
    (resolveCommand systemGroup [lit "shutdown"]).self
      = (resolveCommand systemGroup [lit "poweroff"]).self := by
  have hok : systemGroup.validate = .ok () := by rfl
  have hunique := ((validate_eq_ok systemGroup).mp hok).uniqueNames
  have haliased : systemGroup.Aliased [lit "poweroff"] [lit "shutdown"] :=
    .cons ((getChild_eq_some_iff hunique).mp rfl) ((getChild_eq_some_iff hunique).mp rfl) (.nil _)
  exact congrArg Command.self
    (((validate_and_resolve systemGroup).2 hok _).2.2.2 _ _ [] rfl haliased)

end Command

end Holchain.Holper
