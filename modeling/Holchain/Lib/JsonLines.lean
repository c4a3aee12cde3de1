import Holchain.Lib.JsonLaws
import Holchain.Lib.Lines

/-!
# Lib.JsonLines — one value a line

Without an indentation the text of a value has no newline (`newline_notMem_write`): inside strings
it is an escape, and a number that is read as a whole has none in it. So values that are written one
a line are read back line by line (`loads_lines`).
-/

namespace Holchain.Lib.Json

variable {text rest whole tail : List Char}

/-! ## Numbers -/

theorem newline_notMem_digits (text : List Char) : '\n' ∉ text.takeWhile Char.isDigit := by
  intro hmem
  exact absurd (List.mem_takeWhile_imp hmem) (by decide)

/-- A newline among digits and others is among the others. -/
theorem newline_mem_dropWhile (h : '\n' ∈ text) : '\n' ∈ text.dropWhile Char.isDigit := by
  rw [← List.takeWhile_append_dropWhile (p := Char.isDigit) (l := text)] at h
  exact (List.mem_append.mp h).resolve_left (newline_notMem_digits text)

theorem newline_mem_scanNat (h : scanNat text = some (whole, tail)) (hmem : '\n' ∈ text) :
    '\n' ∈ tail := by
  unfold scanNat at h
  split at h
  next => cases h
  next rest =>
    cases h
    exact (List.mem_cons.mp hmem).resolve_left (by decide)
  next c rest _ =>
    split at h
    next hdigit =>
      cases h
      have hc : '\n' ≠ c := by
        rintro rfl
        exact absurd hdigit (by decide)
      exact newline_mem_dropWhile ((List.mem_cons.mp hmem).resolve_left hc)
    next => cases h

theorem newline_mem_scanInt (h : scanInt text = some (whole, tail)) (hmem : '\n' ∈ text) :
    '\n' ∈ tail := by
  unfold scanInt at h
  split at h
  next rest =>
    obtain ⟨p, hp, heq⟩ := Option.map_eq_some_iff.mp h
    obtain ⟨-, rfl⟩ := Prod.mk.inj heq
    exact newline_mem_scanNat hp ((List.mem_cons.mp hmem).resolve_left (by decide))
  next => exact newline_mem_scanNat h hmem

theorem newline_mem_scanDigits {before : List Char} (hbefore : '\n' ∉ before)
    (hmem : '\n' ∈ before ++ text) : '\n' ∈ (scanDigits before text).2 := by
  unfold scanDigits
  split
  · exact hmem
  · exact newline_mem_dropWhile ((List.mem_append.mp hmem).resolve_left hbefore)

theorem newline_mem_scanFraction (hmem : '\n' ∈ text) : '\n' ∈ (scanFraction text).2 := by
  unfold scanFraction
  split
  · exact newline_mem_scanDigits (by decide) hmem
  · exact hmem

theorem newline_mem_scanSigned {e : Char} (he : e ≠ '\n') (hmem : '\n' ∈ e :: text) :
    '\n' ∈ (scanSigned e text).2 := by
  have hrest := (List.mem_cons.mp hmem).resolve_left he.symm
  unfold scanSigned
  split
  next => cases hrest
  next sign rest =>
    split
    next hsign =>
      have hne : '\n' ≠ sign := by
        rintro rfl
        exact absurd hsign (by decide)
      refine newline_mem_scanDigits ?_ (List.mem_append_right _ ?_)
      · simp [he.symm, hne]
      · exact (List.mem_cons.mp hrest).resolve_left hne
    next =>
      refine newline_mem_scanDigits ?_ (List.mem_append_right _ hrest)
      simp [he.symm]

theorem newline_mem_scanExponent (hmem : '\n' ∈ text) : '\n' ∈ (scanExponent text).2 := by
  unfold scanExponent
  split
  next => cases hmem
  next e rest =>
    split
    next he =>
      have hne : e ≠ '\n' := by
        rintro rfl
        exact absurd he (by decide)
      exact newline_mem_scanSigned hne hmem
    next => exact hmem

/-- What is read as a number to its end has no newline. -/
theorem newline_notMem_number (h : scanNumber text = some (whole, tail, [])) : '\n' ∉ text := by
  intro hmem
  obtain ⟨p, hp, heq⟩ := Option.map_eq_some_iff.mp h
  have hend : (scanExponent (scanFraction p.2).2).2 = [] := congrArg (·.2.2) heq
  have hexponent := newline_mem_scanExponent (newline_mem_scanFraction (newline_mem_scanInt hp hmem))
  rw [hend] at hexponent
  cases hexponent

/-! ## Values -/

variable {F : Type} {floats : Floats F}

theorem newline_notMem_text (hfloats : Lawful floats) (x : F) : '\n' ∉ floats.text x := by
  rcases hfloats.read x with ⟨_, _, htext, -⟩ | ⟨htext, -⟩ | ⟨htext, -⟩ | ⟨htext, -⟩
  · exact newline_notMem_number htext
  · rw [htext]
    decide
  · rw [htext]
    decide
  · rw [htext]
    decide

theorem digitChar_ne_newline {d : ℕ} (h : d < 16) : '\n' ≠ d.digitChar := by
  have hall : ∀ d < 16, '\n' ≠ Nat.digitChar d := by decide
  exact hall d h

/-- A unit of a string is escaped, or not below a space. -/
theorem newline_notMem_escape {u : ℕ} (h : u < 0x10000) : '\n' ∉ escape u := by
  unfold escape
  split_ifs with h34 h92 h10 h13 h9 h12 h8 hplain
  · decide
  · decide
  · decide
  · decide
  · decide
  · decide
  · decide
  · intro hmem
    have heq := congrArg Char.toNat (List.mem_singleton.mp hmem)
    have hten : 10 = (Char.ofNat u).toNat := heq
    rw [toNat_ofNat (by omega)] at hten
    exact h10 hten.symm
  · have hdigits (d : ℕ) : '\n' ≠ (d % 16).digitChar :=
      digitChar_ne_newline (Nat.mod_lt d (by decide))
    have hfirst : '\n' ≠ (u / 4096).digitChar := digitChar_ne_newline (by omega)
    simp [hfirst, hdigits]

theorem newline_notMem_quote (s : Str) : '\n' ∉ quote s := by
  have hunits : '\n' ∉ s.toUnits.flatMap escape := by
    intro hmem
    obtain ⟨u, hu, hescape⟩ := List.mem_flatMap.mp hmem
    exact newline_notMem_escape (s.toUnits_bounded u hu) hescape
  simp [quote, hunits]

mutual

/-- **A value without an indentation is one line.** -/
theorem newline_notMem_write (hfloats : Lawful floats) : ∀ (v : Json F) (level : ℕ),
    '\n' ∉ write floats none level v
  | .null, _ => by
    show '\n' ∉ word "null"
    decide
  | .bool true, _ => by
    show '\n' ∉ word "true"
    decide
  | .bool false, _ => by
    show '\n' ∉ word "false"
    decide
  | .int n, _ => newline_notMem_number (scanNumber_intText n)
  | .float x, _ => newline_notMem_text hfloats x
  | .str s, _ => newline_notMem_quote s
  | .arr items, level => by
    have hitems := newline_notMem_writeItems hfloats items (level + 1)
    rw [write]
    split
    · decide
    · simp [newline, hitems]
  | .obj members, level => by
    have hmembers := newline_notMem_writeMembers hfloats members (level + 1)
    rw [write]
    split
    · decide
    · simp [newline, hmembers]

theorem newline_notMem_writeItems (hfloats : Lawful floats) : ∀ (items : List (Json F)) (level : ℕ),
    '\n' ∉ writeItems floats none level items
  | [], _ => List.not_mem_nil
  | v :: vs, level => by
    have hv := newline_notMem_write hfloats v level
    have hvs := newline_notMem_writeItems hfloats vs level
    rw [writeItems]
    split
    · simp [hv]
    · simp [comma, hv, hvs]

theorem newline_notMem_writeMembers (hfloats : Lawful floats) :
    ∀ (members : List (Str × Json F)) (level : ℕ), '\n' ∉ writeMembers floats none level members
  | [], _ => List.not_mem_nil
  | (key, v) :: members, level => by
    have hkey := newline_notMem_quote key
    have hv := newline_notMem_write hfloats v level
    have hmembers := newline_notMem_writeMembers hfloats members level
    rw [writeMembers]
    split
    · simp [hkey, hv]
    · simp [comma, hkey, hv, hmembers]

end

/-! ## Lines -/

/-- The line of a value. -/
def line (hfloats : Lawful floats) (v : Json F) : Line '\n' :=
  ⟨write floats none 0 v, newline_notMem_write hfloats v 0⟩

/-- **Values that are written one a line are read back line by line.** -/
theorem loads_lines (hfloats : Lawful floats) {vs : List (Json F)} (h : ∀ v ∈ vs, Keyed v) :
    (Line.records (Line.unlines (vs.map (line hfloats)))).map
      (fun l : Line '\n' => loads floats l.val) = vs.map some := by
  rw [Line.records_unlines, List.map_map]
  exact List.map_congr_left fun v hv => loads_write hfloats (h v hv)

end Holchain.Lib.Json
