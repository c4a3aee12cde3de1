import Mathlib.Data.List.DropRight

/-!
# Lib.Lines — texts and their lines

A line is a list without the separator, so a text of ended lines splits into just these lines
(`records_unlines`). A last line without its end counts as a line too, as it does for line-oriented
tools; no text but the empty one is without lines.
-/

namespace Holchain.Lib

variable {α : Type*} {nl : α}

/-- A line: no separator in it. -/
abbrev Line (nl : α) := { l : List α // nl ∉ l }

namespace Line

/-- The empty line. -/
def empty : Line nl := ⟨[], List.not_mem_nil⟩

/-- One line put before another. -/
def append (l l' : Line nl) : Line nl :=
  ⟨l.val ++ l'.val, fun h => (List.mem_append.mp h).elim l.property l'.property⟩

/-- The lines, each with its end. -/
def unlines (ls : List (Line nl)) : List α := ls.flatMap fun l => l.val ++ [nl]

@[simp] theorem unlines_nil : unlines ([] : List (Line nl)) = [] := rfl

@[simp] theorem unlines_cons (l : Line nl) (ls : List (Line nl)) :
    unlines (l :: ls) = l.val ++ nl :: unlines ls := by
  unfold unlines
  rw [List.flatMap_cons, List.append_assoc]
  rfl

theorem unlines_append (ls ls' : List (Line nl)) :
    unlines (ls ++ ls') = unlines ls ++ unlines ls' := by
  unfold unlines
  rw [List.flatMap_append]

theorem unlines_concat (ls : List (Line nl)) (l : Line nl) :
    unlines (ls ++ [l]) = unlines ls ++ l.val ++ [nl] := by
  rw [unlines_append, unlines_cons, unlines_nil, List.append_assoc]

/-- Every text is ended lines and what stands behind them. -/
theorem exists_unlines (nl : α) (text : List α) :
    ∃ (ls : List (Line nl)) (l : Line nl), text = unlines ls ++ l.val := by
  classical
  induction text with
  | nil => exact ⟨[], empty, rfl⟩
  | cons c text ih =>
    obtain ⟨ls, l, rfl⟩ := ih
    by_cases hc : c = nl
    · rw [hc]
      exact ⟨empty :: ls, l, by rw [unlines_cons, List.append_assoc]; rfl⟩
    · have hcons {xs : List α} (h : nl ∉ xs) : nl ∉ c :: xs :=
        fun hmem => (List.mem_cons.mp hmem).elim (fun heq => hc heq.symm) h
      cases ls with
      | nil => exact ⟨[], ⟨c :: l.val, hcons l.property⟩, rfl⟩
      | cons l' ls => exact ⟨⟨c :: l'.val, hcons l'.property⟩ :: ls, l, by
          rw [unlines_cons, unlines_cons, List.append_assoc, List.append_assoc]; rfl⟩

theorem exists_unlines_concat (nl : α) (text : List α) :
    ∃ ls : List (Line nl), text ++ [nl] = unlines ls := by
  obtain ⟨ls, l, rfl⟩ := exists_unlines nl text
  exact ⟨ls ++ [l], (unlines_concat ls l).symm⟩

theorem mem_unlines {ls : List (Line nl)} {c : α} (hc : c ≠ nl) :
    c ∈ unlines ls ↔ ∃ l ∈ ls, c ∈ l.val := by
  unfold unlines
  rw [List.mem_flatMap]
  refine exists_congr fun l => and_congr_right fun _ => ?_
  rw [List.mem_append, List.mem_singleton, or_iff_left hc]

theorem infix_unlines_of_mem {ls : List (Line nl)} {l : Line nl} (h : l ∈ ls) :
    l.val <:+: unlines ls := by
  obtain ⟨before, behind, rfl⟩ := List.append_of_mem h
  rw [unlines_append, unlines_cons]
  exact List.infix_append' _ _ _

/-- The last line is ended. -/
def Ended (nl : α) (text : List α) : Prop := ∀ c ∈ text.getLast?, c = nl

theorem ended_iff (ls : List (Line nl)) (l : Line nl) :
    Ended nl (unlines ls ++ l.val) ↔ l.val = [] := by
  constructor
  · intro h
    by_contra hne
    have hlast : (unlines ls ++ l.val).getLast? = some (l.val.getLast hne) := by
      rw [List.getLast?_append_of_ne_nil _ hne]
      exact List.getLast?_eq_some_getLast hne
    have hnl := h _ hlast
    have hmem := List.getLast_mem hne
    rw [hnl] at hmem
    exact l.property hmem
  · intro h c hc
    rw [h, List.append_nil] at hc
    cases ls using List.reverseRecOn with
    | nil => exact absurd hc nofun
    | append_singleton ls last =>
      rw [unlines_concat, List.getLast?_concat] at hc
      exact (Option.some.inj hc).symm

/-! ## Reading lines -/

variable [DecidableEq α]

/-- The lines of a text, after a line that has begun. -/
def recordsFrom (line : Line nl) : List α → List (Line nl)
  | [] => if line.val = [] then [] else [line]
  | c :: cs =>
    if h : c = nl then line :: recordsFrom empty cs
    else
      have hline : nl ∉ line.val ++ [c] := fun hmem => (List.mem_append.mp hmem).elim line.property
        fun hc => h (List.mem_singleton.mp hc).symm
      recordsFrom ⟨line.val ++ [c], hline⟩ cs

/-- The lines of a text. -/
def records (text : List α) : List (Line nl) := recordsFrom empty text

/-- What there is of a line is read on to the next separator. -/
theorem recordsFrom_append (line l : Line nl) (rest : List α) :
    recordsFrom line (l.val ++ rest) = recordsFrom (line.append l) rest := by
  obtain ⟨l, hl⟩ := l
  unfold append
  induction l generalizing line with
  | nil =>
    have hsame : line.val ++ [] = line.val := List.append_nil _
    simp only [List.nil_append, hsame]
  | cons c l ih =>
    have hc : ¬ c = nl := fun heq => hl (heq ▸ List.mem_cons_self)
    have hrest : nl ∉ l := fun hmem => hl (List.mem_cons_of_mem c hmem)
    have hassoc : (line.val ++ [c]) ++ l = line.val ++ c :: l := (List.append_cons _ _ _).symm
    rw [List.cons_append, recordsFrom, dif_neg hc, ih _ hrest]
    simp only [hassoc]

/-- A text that begins with an ended line. -/
theorem records_line (l : Line nl) (rest : List α) :
    records (l.val ++ nl :: rest) = l :: records rest := by
  rw [records, recordsFrom_append, recordsFrom, dif_pos rfl]
  rfl

/-- A text without any separator. -/
theorem records_val (l : Line nl) : records l.val = if l.val = [] then [] else [l] := by
  have h := recordsFrom_append empty l []
  rw [List.append_nil] at h
  rw [records, h]
  rfl

theorem records_append (ls : List (Line nl)) (rest : List α) :
    records (unlines ls ++ rest) = ls ++ records rest := by
  induction ls with
  | nil => rfl
  | cons l ls ih => rw [unlines_cons, List.append_assoc, List.cons_append, records_line, ih,
      List.cons_append]

/-- **A text of ended lines has these lines.** -/
theorem records_unlines (ls : List (Line nl)) : records (unlines ls) = ls := by
  have h := records_append ls []
  rw [List.append_nil] at h
  rw [h]
  exact List.append_nil ls

/-- Texts without separators, each ended, are lines. -/
theorem map_records_ended {lines : List (List α)} (h : ∀ line ∈ lines, nl ∉ line) :
    (records (lines.flatMap fun line => line ++ [nl]) : List (Line nl)).map (·.val) = lines := by
  induction lines with
  | nil => rfl
  | cons line lines ih =>
    obtain ⟨hline, hlines⟩ := List.forall_mem_cons.mp h
    rw [List.flatMap_cons, List.append_assoc, List.singleton_append, records_line ⟨line, hline⟩,
      List.map_cons, ih hlines]

theorem records_unended (ls : List (Line nl)) {l : Line nl} (h : l.val ≠ []) :
    records (unlines ls ++ l.val) = ls ++ [l] := by
  rw [records_append, records_val, if_neg h]

/-- A line before a text becomes a part of its first line. -/
theorem records_prepend (l : Line nl) {text : List α} {first : Line nl} {rest : List (Line nl)}
    (h : records text = first :: rest) : records (l.val ++ text) = l.append first :: rest := by
  obtain ⟨ls, last, rfl⟩ := exists_unlines nl text
  cases ls with
  | nil =>
    rw [unlines_nil, List.nil_append, records_val] at h
    split at h
    · cases h
    · next hne =>
      obtain ⟨rfl, rfl⟩ := List.cons.inj h
      have happend : (l.append last).val ≠ [] := List.append_ne_nil_of_right_ne_nil _ hne
      rw [unlines_nil, List.nil_append]
      exact (records_val (l.append last)).trans (if_neg happend)
  | cons l' ls =>
    rw [unlines_cons, List.append_assoc, List.cons_append, records_line] at h
    obtain ⟨rfl, rfl⟩ := List.cons.inj h
    have hassoc : l.val ++ (unlines (l' :: ls) ++ last.val) =
        (l.append l').val ++ nl :: (unlines ls ++ last.val) := by
      rw [unlines_cons, append, List.append_assoc, List.append_assoc, List.cons_append]
    rw [hassoc, records_line]

theorem records_eq_nil {text : List α} : (records text : List (Line nl)) = [] ↔ text = [] := by
  obtain ⟨ls, last, rfl⟩ := exists_unlines nl text
  constructor
  · intro h
    rw [records_append, List.append_eq_nil_iff, records_val] at h
    obtain ⟨rfl, hlast⟩ := h
    rw [unlines_nil, List.nil_append]
    by_contra hne
    rw [if_neg hne] at hlast
    cases hlast
  · intro h
    rw [h]
    rfl

/-- A line is a part of its text. -/
theorem infix_of_mem_records {text : List α} {l : Line nl} (h : l ∈ records text) :
    l.val <:+: text := by
  obtain ⟨ls, last, rfl⟩ := exists_unlines nl text
  rw [records_append, List.mem_append] at h
  rcases h with h | h
  · exact (infix_unlines_of_mem h).trans (List.prefix_append _ _).isInfix
  · rw [records_val] at h
    split at h
    · exact absurd h List.not_mem_nil
    · rw [List.mem_singleton.mp h]
      exact (List.suffix_append _ _).isInfix

/-- The elements of a text are those of its lines and the separators. -/
theorem mem_records {text : List α} {c : α} (hc : c ≠ nl) :
    c ∈ text ↔ ∃ l ∈ (records text : List (Line nl)), c ∈ l.val := by
  obtain ⟨ls, l, rfl⟩ := exists_unlines nl text
  by_cases hl : l.val = []
  · rw [hl, List.append_nil, records_unlines, mem_unlines hc]
  · rw [records_unended ls hl, List.mem_append, mem_unlines hc]
    constructor
    · rintro (⟨l', hl', hmem⟩ | hmem)
      · exact ⟨l', List.mem_append_left _ hl', hmem⟩
      · exact ⟨l, List.mem_append_right _ (List.mem_singleton_self l), hmem⟩
    · rintro ⟨l', hl', hmem⟩
      rcases List.mem_append.mp hl' with hl' | hl'
      · exact .inl ⟨l', hl', hmem⟩
      · rw [List.mem_singleton.mp hl'] at hmem
        exact .inr hmem

theorem count_unlines (ls : List (Line nl)) : (unlines ls).count nl = ls.length := by
  induction ls with
  | nil => rfl
  | cons l ls ih =>
    rw [unlines_cons, List.count_append, List.count_eq_zero.mpr l.property, List.count_cons_self,
      ih, List.length_cons, Nat.zero_add]

/-- A text has one line more than separators, or as many. -/
theorem length_records_le (text : List α) :
    (records text : List (Line nl)).length ≤ text.count nl + 1 := by
  obtain ⟨ls, l, rfl⟩ := exists_unlines nl text
  rw [List.count_append, count_unlines, List.count_eq_zero.mpr l.property]
  by_cases hl : l.val = []
  · rw [hl, List.append_nil, records_unlines]
    omega
  · rw [records_unended ls hl, List.length_append, List.length_singleton]

/-! ## A line more -/

/-- A line written behind a text is a line of its own where the last one is ended. -/
theorem records_add {text : List α} (h : Ended nl text) (l : Line nl) :
    records (text ++ l.val ++ [nl]) = (records text ++ [l] : List (Line nl)) := by
  obtain ⟨ls, last, rfl⟩ := exists_unlines nl text
  have hlast : last.val = [] := (ended_iff ls last).mp h
  rw [hlast, List.append_nil, ← unlines_concat, records_unlines, records_unlines]

/-- Otherwise it becomes a part of the last one. -/
theorem records_join {text : List α} (h : ¬ Ended nl text) (l : Line nl) :
    ∃ (ls : List (Line nl)) (last : Line nl), records text = ls ++ [last] ∧
      records (text ++ l.val ++ [nl]) = ls ++ [last.append l] := by
  obtain ⟨ls, last, rfl⟩ := exists_unlines nl text
  have hlast : last.val ≠ [] := fun hnil => h ((ended_iff ls last).mpr hnil)
  refine ⟨ls, last, records_unended ls hlast, ?_⟩
  have hval : unlines ls ++ last.val ++ l.val ++ [nl] = unlines (ls ++ [last.append l]) := by
    rw [unlines_concat, append, List.append_assoc (unlines ls)]
  rw [hval, records_unlines]

end Line

/-! ## Texts in texts -/

variable {m f x y : List α}

/-- A text that nothing stands across: the text `m` is not in it, and cannot begin in it and end
behind it, or begin before it and end in it or behind it. -/
def Fence (m f : List α) : Prop :=
  ¬ m <:+: f ∧ ∀ i ≤ m.length, (0 < i → ¬ m.take i <:+ f)
    ∧ (i < m.length → ¬ m.drop i <+: f ∧ ¬ f <+: m.drop i)

instance [DecidableEq α] (m f : List α) : Decidable (Fence m f) :=
  inferInstanceAs (Decidable (_ ∧ _))

theorem Fence.infix_right (h : Fence m f) : m <:+: f ++ y ↔ m <:+: y := by
  refine ⟨fun hin => ?_, fun hin => hin.trans (List.suffix_append f y).isInfix⟩
  rcases List.infix_append_iff.mp hin with hin | hin | ⟨u, v, rfl, hu, hv⟩
  · exact absurd hin h.1
  · exact hin
  · cases u with
    | nil => exact hv.isInfix
    | cons c u =>
      have hno := (h.2 (c :: u).length (by rw [List.length_append]; omega)).1 (Nat.succ_pos _)
      rw [List.take_left] at hno
      exact absurd hu hno

/-- **Nothing stands across a fence.** -/
theorem Fence.infix_iff (h : Fence m f) : m <:+: x ++ (f ++ y) ↔ m <:+: x ∨ m <:+: y := by
  constructor
  · intro hin
    rcases List.infix_append_iff.mp hin with hin | hin | ⟨u, v, rfl, hu, hv⟩
    · exact .inl hin
    · exact .inr (h.infix_right.mp hin)
    · cases v with
      | nil =>
        rw [List.append_nil]
        exact .inl hu.isInfix
      | cons c v =>
        have hno := (h.2 u.length (by rw [List.length_append]; omega)).2
          (by rw [List.length_append, List.length_cons]; omega)
        rw [List.drop_left] at hno
        rcases List.prefix_or_prefix_of_prefix hv (List.prefix_append f y) with hp | hp
        · exact absurd hp hno.1
        · exact absurd hp hno.2
  · rintro (hin | hin)
    · exact hin.trans (List.prefix_append x _).isInfix
    · exact (h.infix_right.mpr hin).trans (List.suffix_append x _).isInfix

/-- Of texts behind fences, what is in the whole is in one of them. -/
theorem infix_fences {ι : Type*} {fence text : ι → List α} {parts : List ι}
    (h : ∀ i ∈ parts, Fence m (fence i)) :
    m <:+: x ++ parts.flatMap (fun i => fence i ++ text i) ↔
      m <:+: x ∨ ∃ i ∈ parts, m <:+: text i := by
  induction parts generalizing x with
  | nil =>
    rw [List.flatMap_nil, List.append_nil]
    exact ⟨.inl, fun hor => hor.resolve_right fun ⟨_, hmem, _⟩ => List.not_mem_nil hmem⟩
  | cons i parts ih =>
    have hrest := ih (x := text i) fun j hj => h j (List.mem_cons_of_mem i hj)
    rw [List.flatMap_cons, List.append_assoc, (h i List.mem_cons_self).infix_iff, hrest]
    simp only [List.mem_cons, exists_eq_or_imp]

/-- A separator is a fence for what has none. -/
theorem fence_separator (hne : m ≠ []) (h : nl ∉ m) : Fence m [nl] := by
  have hin {u : List α} (hu : u ≠ []) (hsep : u <:+: [nl]) : nl ∈ u := by
    obtain ⟨c, hc⟩ := List.exists_mem_of_ne_nil u hu
    rw [List.mem_singleton.mp (hsep.subset hc)] at hc
    exact hc
  refine ⟨fun hm => h (hin hne hm), fun i hi => ⟨fun hpos hm => ?_, fun hlt => ⟨fun hm => ?_, ?_⟩⟩⟩
  · have htake : m.take i ≠ [] := by
      intro hnil
      rw [List.take_eq_nil_iff] at hnil
      exact hnil.elim (Nat.ne_of_gt hpos) hne
    exact h (List.mem_of_mem_take (hin htake hm.isInfix))
  · have hdrop : m.drop i ≠ [] := by
      intro hnil
      rw [List.drop_eq_nil_iff] at hnil
      omega
    exact h (List.mem_of_mem_drop (hin hdrop hm.isInfix))
  · intro hm
    exact h (List.mem_of_mem_drop (hm.subset (List.mem_singleton_self nl)))

namespace Line

/-- A text without separators is in ended lines if and only if it is in one of them. -/
theorem infix_unlines (hne : m ≠ []) (h : nl ∉ m) (ls : List (Line nl)) :
    m <:+: unlines ls ↔ ∃ l ∈ ls, m <:+: l.val := by
  induction ls with
  | nil =>
    rw [unlines_nil, List.infix_nil]
    exact ⟨fun heq => absurd heq hne, fun ⟨l, hl, _⟩ => absurd hl List.not_mem_nil⟩
  | cons l ls ih =>
    have hcons : unlines (l :: ls) = l.val ++ ([nl] ++ unlines ls) := unlines_cons l ls
    rw [hcons, (fence_separator hne h).infix_iff, ih]
    constructor
    · rintro (hin | ⟨l', hl', hin⟩)
      · exact ⟨l, List.mem_cons_self, hin⟩
      · exact ⟨l', List.mem_cons_of_mem l hl', hin⟩
    · rintro ⟨l', hl', hin⟩
      rcases List.mem_cons.mp hl' with rfl | hl'
      · exact .inl hin
      · exact .inr ⟨l', hl', hin⟩

end Line

/-! ## The last line -/

/-- Only the last one has the property. -/
def OnlyLast (q : α → Prop) (ls : List α) : Prop :=
  ∃ before last, ls = before ++ [last] ∧ (∀ l ∈ before, ¬ q l) ∧ q last

theorem onlyLast_singleton {q : α → Prop} {l : α} : OnlyLast q [l] ↔ q l := by
  constructor
  · rintro ⟨before, last, heq, -, hlast⟩
    have hsplit : [] ++ [l] = before ++ [last] := heq
    obtain ⟨-, hl⟩ := List.append_inj' hsplit rfl
    obtain ⟨rfl, -⟩ := List.cons.inj hl
    exact hlast
  · intro hl
    exact ⟨[], l, rfl, fun _ h => absurd h List.not_mem_nil, hl⟩

theorem onlyLast_append {q : α → Prop} {xs ys : List α} (hne : ys ≠ []) :
    OnlyLast q (xs ++ ys) ↔ (∀ l ∈ xs, ¬ q l) ∧ OnlyLast q ys := by
  constructor
  · rintro ⟨before, last, heq, hbefore, hlast⟩
    obtain ⟨ys, y, rfl⟩ := (List.eq_nil_or_concat ys).resolve_left hne
    rw [List.concat_eq_append, ← List.append_assoc] at heq
    obtain ⟨rfl, hy⟩ := List.append_inj' heq rfl
    obtain ⟨rfl, -⟩ := List.cons.inj hy
    refine ⟨fun l hl => hbefore l (List.mem_append_left _ hl), ys, y, List.concat_eq_append,
      fun l hl => hbefore l (List.mem_append_right _ hl), hlast⟩
  · rintro ⟨hxs, before, last, rfl, hbefore, hlast⟩
    refine ⟨xs ++ before, last, (List.append_assoc _ _ _).symm, fun l hl => ?_, hlast⟩
    exact (List.mem_append.mp hl).elim (hxs l) (hbefore l)

theorem onlyLast_cons_congr {q : α → Prop} {l l' : α} (h : q l ↔ q l') (ls : List α) :
    OnlyLast q (l :: ls) ↔ OnlyLast q (l' :: ls) := by
  by_cases hls : ls = []
  · rw [hls, onlyLast_singleton, onlyLast_singleton, h]
  · have hcons (x : α) : OnlyLast q (x :: ls) ↔ ¬ q x ∧ OnlyLast q ls := by
      have happend : OnlyLast q ([x] ++ ls) ↔ _ := onlyLast_append hls
      rw [List.forall_mem_singleton] at happend
      exact happend
    rw [hcons, hcons, h]

namespace Line

variable [DecidableEq α] {g : List α}

/-- The line has the text in it. -/
def Has (m : List α) (l : Line nl) : Prop := m <:+: l.val

/-- Where a text before others has no part in an occurrence, it changes nothing about which lines
have one. -/
theorem onlyLast_records_append (hne : m ≠ []) (hg : ∀ y, m <:+: g ++ y ↔ m <:+: y)
    (text : List α) :
    OnlyLast (Has m) (records (g ++ text) : List (Line nl)) ↔
      OnlyLast (Has m) (records text : List (Line nl)) := by
  have hnil : ¬ m <:+: g ++ [] := by
    rw [hg, List.infix_nil]
    exact hne
  obtain ⟨ls, l, rfl⟩ := exists_unlines nl g
  cases hrecords : (records text : List (Line nl)) with
  | nil =>
    rw [records_eq_nil.mp hrecords]
    constructor
    · rintro ⟨before, last, hlines, -, hlast⟩
      have hmem : last ∈ records (unlines ls ++ l.val ++ []) := by
        rw [hlines]
        exact List.mem_append_right _ (List.mem_singleton_self last)
      exact absurd (hlast.trans (infix_of_mem_records hmem)) hnil
    · rintro ⟨before, last, hlines, -, -⟩
      exact absurd hlines.symm (List.append_ne_nil_of_right_ne_nil _ (List.cons_ne_nil _ _))
  | cons first rest =>
    rw [List.append_nil] at hnil
    have hls : ∀ l' ∈ ls, ¬ Has m l' := fun l' hl' hin =>
      hnil (hin.trans ((infix_unlines_of_mem hl').trans (List.prefix_append _ _).isInfix))
    have hfirst : Has m (l.append first) ↔ Has m first := by
      constructor
      · intro hin
        have hlong := hin.trans (List.suffix_append (unlines ls) _).isInfix
        rw [append, ← List.append_assoc] at hlong
        exact (hg first.val).mp hlong
      · intro hin
        exact hin.trans (List.suffix_append l.val first.val).isInfix
    rw [List.append_assoc, records_append, records_prepend l hrecords,
      onlyLast_append (List.cons_ne_nil _ _), and_iff_right hls]
    exact onlyLast_cons_congr hfirst rest

/-- **Behind a fence with more than one line** only the last line is marked if and only if that is
so in what stands behind the fence, and nothing before it is marked. -/
theorem onlyLast_records_fence (hne : m ≠ []) (h : nl ∉ m) (hgne : g ≠ [])
    (hf : Fence m (f ++ nl :: g)) (text : List α) :
    OnlyLast (Has m) (records (x ++ (f ++ nl :: g ++ text)) : List (Line nl)) ↔
      ¬ m <:+: x ∧ OnlyLast (Has m) (records text : List (Line nl)) := by
  have hsplit : f ++ nl :: g = f ++ [nl] ++ g := List.append_cons f nl g
  have hg (y : List α) : m <:+: g ++ y ↔ m <:+: y := by
    constructor
    · intro hin
      refine hf.infix_right.mp (hin.trans ?_)
      rw [hsplit, List.append_assoc]
      exact (List.suffix_append _ _).isInfix
    · intro hin
      exact hin.trans (List.suffix_append g y).isInfix
  obtain ⟨ls, hls⟩ := exists_unlines_concat nl (x ++ f)
  have hbefore : (∀ l ∈ ls, ¬ Has m l) ↔ ¬ m <:+: x := by
    have hin := infix_unlines hne h ls
    rw [← hls] at hin
    constructor
    · intro hno hx
      obtain ⟨l, hl, hl'⟩ := hin.mp (hx.trans (List.append_assoc x f _ ▸
        (List.prefix_append x _).isInfix))
      exact hno l hl hl'
    · intro hno l hl hl'
      have hwhole := (hin.mpr ⟨l, hl, hl'⟩).trans (List.prefix_append _ g).isInfix
      rw [List.append_assoc, List.append_assoc, ← List.append_assoc f, ← hsplit,
        ← List.append_nil (f ++ nl :: g), hf.infix_iff, List.infix_nil] at hwhole
      exact hwhole.elim hno hne
  have htext : x ++ (f ++ nl :: g ++ text) = unlines ls ++ (g ++ text) := by
    rw [← hls, hsplit]
    simp only [List.append_assoc]
  have hrest : (records (g ++ text) : List (Line nl)) ≠ [] := by
    rw [Ne, records_eq_nil]
    exact List.append_ne_nil_of_left_ne_nil hgne _
  rw [htext, records_append, onlyLast_append hrest, hbefore, onlyLast_records_append hne hg]

end Line

end Holchain.Lib
