import Holchain.Laws.Command

/-!
# Laws.CommandManager — the tree that registrations build

`initializeCommand` links the new group in before it is built and validates that group alone. So
a group that is refused stays in the tree, and the names of different groups are never compared
with each other. The tree is as `validate` wants it exactly when no group is refused and the
groups' own names are all different (`registerAll_keeps_rules_iff`).
-/

namespace Holchain.Holper

open CommandManager (initializeCommand)

namespace CommandManager

/-- A `registerCommandGroup` call: where its child is allocated, and what the group's initialiser
makes of it. -/
structure Registration where
  self : Nat
  initializer : Command → Command

/-- The group's command, built. -/
def Registration.group (r : Registration) : Command := r.initializer (Command.new r.self)

/-- The root after a registration, refused or not. -/
def register (root : Command) (r : Registration) : Command :=
  (initializeCommand r.self r.initializer root).1

/-- The root after a sequence of registrations. -/
def registerAll (root : Command) (rs : List Registration) : Command := rs.foldl register root

/-- The rules for the whole tree: at every node the children's names are all different, and every
node but an empty root has an action exactly when it has no children. -/
def TreeRules (root : Command) : Prop :=
  ∀ c, root.Node c → c.UniqueNames ∧ (c.ActionIffLeaf ∨ (c = root ∧ root.children = []))

/-- A refused registration leaves the root as it was. -/
def RefusalsUndone (root : Command) (rs : List Registration) : Prop :=
  ∀ pre r post e, rs = pre ++ r :: post →
    (initializeCommand r.self r.initializer (registerAll root pre)).2 = .error e →
    register (registerAll root pre) r = registerAll root pre

@[simp] theorem register_children (root : Command) (r : Registration) :
    (register root r).children = root.children ++ [r.group] := rfl

@[simp] theorem register_action (root : Command) (r : Registration) :
    (register root r).action = root.action := rfl

theorem registerAll_children (root : Command) (rs : List Registration) :
    (registerAll root rs).children = root.children ++ rs.map Registration.group := by
  induction rs generalizing root with
  | nil => simp [registerAll]
  | cons r rs ih =>
    have := ih (register root r)
    simpa [registerAll] using this

theorem registerAll_action (root : Command) (rs : List Registration) :
    (registerAll root rs).action = root.action := by
  induction rs generalizing root with
  | nil => rfl
  | cons r rs ih => exact ih (register root r)

/-- A registration always changes the tree. -/
theorem register_ne (root : Command) (r : Registration) : register root r ≠ root := by
  intro h
  have := congrArg (fun c : Command => c.children.length) h
  simp at this

/-- A node is the root or a node below one of the root's children. -/
theorem node_iff {root c : Command} :
    root.Node c ↔ c = root ∨ ∃ d ∈ root.children, d.Node c := by
  constructor
  · intro h
    induction h with
    | root => exact .inl rfl
    | @child c d _ hd ih =>
      rcases ih with rfl | ⟨e, he, hc⟩
      · exact .inr ⟨d, hd, .root⟩
      · exact .inr ⟨e, he, hc.child hd⟩
  · intro h
    rcases h with rfl | ⟨d, hd, hc⟩
    · exact .root
    · have hroot := Command.Node.child .root hd
      clear hd
      induction hc with
      | root => exact hroot
      | child _ he ih => exact ih.child he

/-- No registration is refused exactly when refusals are undone: a refused one is not. -/
theorem refusalsUndone_iff {root : Command} {rs : List Registration} :
    RefusalsUndone root rs ↔ ∀ r ∈ rs, r.group.Valid := by
  constructor
  · intro h r hr
    obtain ⟨pre, post, rfl⟩ := List.append_of_mem hr
    cases hv : r.group.validate with
    | ok u => exact (Command.validate_eq_ok _).mp hv
    | error e => exact absurd (h pre r post e rfl hv) (register_ne _ r)
  · rintro h pre r post e rfl he
    have hv := (Command.validate_eq_ok _).mpr (h r (by simp))
    exact absurd (he.symm.trans hv) (by simp)

/-- **When the registrations keep the rules.** After any sequence of registrations on the daemon's
root the rules hold in the whole tree, and every refused registration left it as it was, if and
only if every group keeps the two rules at all its nodes and no name occurs twice among the names
of the groups. -/
theorem registerAll_keeps_rules_iff (self : Nat) (rs : List Registration) :
    (TreeRules (registerAll (new self) rs) ∧ RefusalsUndone (new self) rs)
      ↔ (∀ r ∈ rs, ∀ c, r.group.Node c → c.UniqueNames ∧ c.ActionIffLeaf)
        ∧ ((rs.map Registration.group).flatMap Command.names).Nodup := by
  have hchildren : (registerAll (new self) rs).children = rs.map Registration.group :=
    registerAll_children _ _
  have hvalid : (∀ r ∈ rs, ∀ c, r.group.Node c → c.UniqueNames ∧ c.ActionIffLeaf)
      ↔ ∀ r ∈ rs, r.group.Valid :=
    forall₂_congr fun r _ => by
      rw [← Command.validate_eq_ok, Command.validate_eq_ok_iff]
  rw [hvalid, refusalsUndone_iff, and_comm]
  apply and_congr_right
  intro hall
  constructor
  · intro h
    have := (h _ .root).1
    rwa [Command.UniqueNames, hchildren] at this
  · intro hnd c hc
    rcases node_iff.mp hc with rfl | ⟨d, hd, hdc⟩
    · refine ⟨by rwa [Command.UniqueNames, hchildren], ?_⟩
      rw [Command.ActionIffLeaf, registerAll_action]
      by_cases hempty : (registerAll (new self) rs).children = []
      · exact .inr ⟨rfl, hempty⟩
      · exact .inl ⟨fun h => (by cases h), fun h => absurd h hempty⟩
    · rw [hchildren] at hd
      obtain ⟨r, hr, rfl⟩ := List.mem_map.mp hd
      have hn := (hall r hr).node hdc
      exact ⟨hn.uniqueNames, .inl hn.actionIffLeaf⟩

/-- A group that only sets its name is refused, and stays in the tree: the root then has a child
with neither children nor action. -/
theorem registerAll_breaks_rules :
    ¬ (TreeRules (registerAll (new 0) [⟨1, Command.setName (lit "broken")⟩])
      ∧ RefusalsUndone (new 0) [⟨1, Command.setName (lit "broken")⟩]) := by
  rintro ⟨hrules, -⟩
  rcases (hrules _ (.child .root List.mem_cons_self)).2 with hleaf | ⟨-, hempty⟩
  · exact absurd (hleaf.mpr rfl) (by decide)
  · cases hempty

end CommandManager

end Holchain.Holper
