import Mathlib.Data.List.Lex
import Mathlib.Data.Prod.Lex
import Mathlib.Order.RelClasses
import OpenwrtFeed.Lib.Shell

/-!
# Numbers with dots between them

Versions and dates are written as decimal numbers with dots between them, `1.6.10` or `2026.10.04`.
`Dotted.text` writes such a list and `splitOn_text` reads it back.  A number is written with zeros
in front of it in a date, and then its text is not the only one; the lemmas on digits are about
these.

Lists of numbers are compared from the left, the beginning of a list being lower than the list.
`compare_cases` has the four ways in which two lists can be compared, and the lemmas after it say
which of the two is lower, also when something has been appended to both.
-/

set_option autoImplicit false

namespace Dotted

open Shell

/-! ## Writing and reading -/

/-- The numbers in decimal, with dots between them. -/
def text (ns : List Nat) : Str := ['.'].intercalate (ns.map (Nat.toDigits 10))

theorem isDigit_of_mem {n : Nat} {c : Char} (h : c ∈ Nat.toDigits 10 n) : c.isDigit = true :=
  Nat.isDigit_of_mem_toDigits (by decide) (by decide) h

theorem dot_notMem (n : Nat) : '.' ∉ Nat.toDigits 10 n := fun h ↦
  absurd (isDigit_of_mem h) (by decide)

theorem splitOn_text {ns : List Nat} (h : ns ≠ []) :
    (text ns).splitOn '.' = ns.map (Nat.toDigits 10) := by
  refine List.splitOn_intercalate _ (fun f hf ↦ ?_) (by simpa using h)
  obtain ⟨n, -, rfl⟩ := List.mem_map.mp hf
  exact dot_notMem n

theorem ofDigitChars_splitOn_text {ns : List Nat} (h : ns ≠ []) :
    ((text ns).splitOn '.').map (fun f ↦ Nat.ofDigitChars 10 f 0) = ns := by
  rw [splitOn_text h, List.map_map]
  refine List.map_id'' (fun n ↦ ?_) ns
  exact Nat.ofDigitChars_ten_toDigits

@[simp] theorem text_nil : text [] = [] := rfl

@[simp] theorem text_singleton (n : Nat) : text [n] = Nat.toDigits 10 n := by
  simp [text]

theorem text_cons (n : Nat) {ns : List Nat} (h : ns ≠ []) :
    text (n :: ns) = Nat.toDigits 10 n ++ '.' :: text ns := by
  obtain ⟨m, ms, rfl⟩ := List.exists_cons_of_ne_nil h
  simp [text]

theorem text_append {ns ms : List Nat} (hn : ns ≠ []) (hm : ms ≠ []) :
    text (ns ++ ms) = text ns ++ '.' :: text ms := by
  induction ns with
  | nil => exact absurd rfl hn
  | cons n ns ih =>
    rcases eq_or_ne ns [] with rfl | hne
    · rw [List.singleton_append, text_cons n hm, text_singleton]
    · rw [List.cons_append, text_cons n (by simp [hne]), ih hne, text_cons n hne,
        List.append_assoc, List.cons_append]

/-- There are only digits and dots in it. -/
theorem mem_text {ns : List Nat} {c : Char} (h : c ∈ text ns) : c.isDigit = true ∨ c = '.' := by
  induction ns with
  | nil => exact absurd h List.not_mem_nil
  | cons n ns ih =>
    rcases eq_or_ne ns [] with rfl | hne
    · rw [text_singleton] at h
      exact .inl (isDigit_of_mem h)
    · rw [text_cons n hne, List.mem_append, List.mem_cons] at h
      rcases h with h | h | h
      · exact .inl (isDigit_of_mem h)
      · exact .inr h
      · exact ih h

theorem text_ne_nil {ns : List Nat} (h : ns ≠ []) : text ns ≠ [] := by
  intro hc
  have hsplit := splitOn_text h
  rw [hc, List.splitOn_nil] at hsplit
  obtain ⟨n, ms, rfl⟩ := List.exists_cons_of_ne_nil h
  rw [List.map_cons, List.cons.injEq] at hsplit
  exact Nat.toDigits_ne_nil hsplit.1.symm

/-! ## Digits -/

section Digits

variable {s t : Str}

theorem exists_digitChar {c : Char} (h : c.isDigit = true) : ∃ d, d < 10 ∧ c = d.digitChar := by
  have hall : ∀ d < 10, Char.ofNat (48 + d) = d.digitChar := by decide
  rw [Char.isDigit_iff_toNat] at h
  obtain ⟨h₁, h₂⟩ := h
  have h₁ : 48 ≤ c.toNat := h₁
  have h₂ : c.toNat ≤ 57 := h₂
  refine ⟨c.toNat - 48, by omega, ?_⟩
  rw [← hall _ (by omega), Nat.add_sub_cancel' h₁, Char.ofNat_toNat]

theorem ofDigitChars_concat {d : Nat} (hd : d < 10) :
    Nat.ofDigitChars 10 (s ++ [d.digitChar]) 0 = 10 * Nat.ofDigitChars 10 s 0 + d := by
  rw [Nat.ofDigitChars_append, Nat.ofDigitChars_cons_digitChar_of_lt_ten hd, Nat.ofDigitChars_nil]

/-- Among texts of one length the number determines the text. -/
theorem ofDigitChars_inj (hs : ∀ c ∈ s, c.isDigit = true) (ht : ∀ c ∈ t, c.isDigit = true)
    (hlen : s.length = t.length)
    (h : Nat.ofDigitChars 10 s 0 = Nat.ofDigitChars 10 t 0) : s = t := by
  induction s using List.reverseRecOn generalizing t with
  | nil => exact (List.eq_nil_of_length_eq_zero hlen.symm).symm
  | append_singleton s a ih =>
    obtain ⟨t, b, rfl⟩ : ∃ t' b, t = t' ++ [b] := by
      have hne : t ≠ [] := by
        rintro rfl
        simp at hlen
      exact ⟨_, _, (List.dropLast_append_getLast hne).symm⟩
    obtain ⟨i, hi, rfl⟩ := exists_digitChar (hs a (by simp))
    obtain ⟨j, hj, rfl⟩ := exists_digitChar (ht b (by simp))
    rw [ofDigitChars_concat hi, ofDigitChars_concat hj] at h
    have hij : i = j := by omega
    rw [List.length_append, List.length_append, List.length_singleton, List.length_singleton]
      at hlen
    rw [ih (fun c hc ↦ hs c (List.mem_append_left _ hc))
      (fun c hc ↦ ht c (List.mem_append_left _ hc)) (by omega) (by omega), hij]

/-- Without a zero in front a number is written in one way only. -/
theorem toDigits_ofDigitChars (hs : ∀ c ∈ s, c.isDigit = true) (hne : s ≠ [])
    (hhead : s.head? ≠ some '0') :
    Nat.toDigits 10 (Nat.ofDigitChars 10 s 0) = s ∧ 0 < Nat.ofDigitChars 10 s 0 := by
  induction s using List.reverseRecOn with
  | nil => exact absurd rfl hne
  | append_singleton s a ih =>
    obtain ⟨d, hd, rfl⟩ := exists_digitChar (hs a (by simp))
    rw [ofDigitChars_concat hd]
    by_cases hnil : s = []
    · subst hnil
      have hpos : d ≠ 0 := by
        rintro rfl
        exact hhead rfl
      simp only [Nat.ofDigitChars_nil, Nat.mul_zero, Nat.zero_add, List.nil_append]
      exact ⟨Nat.toDigits_of_lt_base hd, by omega⟩
    · rw [List.head?_append_of_ne_nil _ hnil] at hhead
      obtain ⟨htext, hpos⟩ := ih (fun c hc ↦ hs c (List.mem_append_left _ hc)) hnil hhead
      rw [← Nat.toDigits_append_toDigits (by decide) hpos hd, htext, Nat.toDigits_of_lt_base hd]
      exact ⟨rfl, by omega⟩

/-- A number that is not zero has no zero in front. -/
theorem head?_toDigits {n : Nat} (h : 0 < n) : (Nat.toDigits 10 n).head? ≠ some '0' := by
  induction n using Nat.strongRecOn with
  | _ n ih =>
    rw [Nat.toDigits_eq_if (by decide)]
    split
    · simp
      omega
    · rw [List.head?_append_of_ne_nil _ Nat.toDigits_ne_nil]
      exact ih (n / 10) (by omega) (by omega)

/-- Of two texts for one number the one with zeros in front is lower. -/
theorem lt_toDigits (hs : ∀ c ∈ s, c.isDigit = true) (hne : s ≠ [])
    (hpos : 0 < Nat.ofDigitChars 10 s 0) (h : s ≠ Nat.toDigits 10 (Nat.ofDigitChars 10 s 0)) :
    s < Nat.toDigits 10 (Nat.ofDigitChars 10 s 0) := by
  have hzero : s.head? = some '0' := by
    by_contra hc
    exact h (toDigits_ofDigitChars hs hne hc).1.symm
  obtain ⟨r, rfl⟩ : ∃ r, s = '0' :: r := by
    cases s with
    | nil => cases hzero
    | cons a r =>
      rw [List.head?_cons] at hzero
      exact ⟨r, by rw [Option.some.inj hzero]⟩
  have hhead := head?_toDigits hpos
  obtain ⟨c, l, hcl⟩ := List.exists_cons_of_ne_nil (Nat.toDigits_ne_nil (b := 10)
    (n := Nat.ofDigitChars 10 ('0' :: r) 0))
  rw [hcl, List.head?_cons] at hhead
  rw [hcl, List.cons_lt_cons_iff]
  left
  have hdigit : c.isDigit = true := isDigit_of_mem (by rw [hcl]; exact List.mem_cons_self)
  obtain ⟨d, hd, rfl⟩ := exists_digitChar hdigit
  have hall : ∀ d < 10, d.digitChar ≠ '0' → '0' < d.digitChar := by decide
  exact hall d hd fun hc ↦ hhead (by rw [hc])

end Digits

/-! ## Comparing -/

section Compare

variable {α : Type} [LinearOrder α]

/-- Two lists are equal, one of them begins with the other, or they part at some place. -/
theorem compare_cases (l m : List α) :
    l = m ∨ (∃ c r, m = l ++ c :: r) ∨ (∃ c r, l = m ++ c :: r) ∨
      ∃ p a b x y, a ≠ b ∧ l = p ++ a :: x ∧ m = p ++ b :: y := by
  induction l generalizing m with
  | nil =>
    rcases m with _ | ⟨b, m⟩
    · exact .inl rfl
    · exact .inr (.inl ⟨b, m, rfl⟩)
  | cons a l ih =>
    rcases m with _ | ⟨b, m⟩
    · exact .inr (.inr (.inl ⟨a, l, rfl⟩))
    · by_cases hab : a = b
      · subst hab
        rcases ih m with rfl | ⟨c, r, rfl⟩ | ⟨c, r, rfl⟩ | ⟨p, a', b', x, y, hne, rfl, rfl⟩
        · exact .inl rfl
        · exact .inr (.inl ⟨c, r, rfl⟩)
        · exact .inr (.inr (.inl ⟨c, r, rfl⟩))
        · exact .inr (.inr (.inr ⟨a :: p, a', b', x, y, hne, rfl, rfl⟩))
      · exact .inr (.inr (.inr ⟨[], a, b, l, m, hab, rfl, rfl⟩))

theorem append_lt_append_iff (p : List α) {l m : List α} : p ++ l < p ++ m ↔ l < m := by
  induction p with
  | nil => rfl
  | cons a p ih => rw [List.cons_append, List.cons_append, List.cons_lt_cons_self, ih]

/-- Where two lists part, the first difference decides. -/
theorem parted_lt_iff {a b : α} (h : a ≠ b) (p x y : List α) :
    p ++ a :: x < p ++ b :: y ↔ a < b := by
  rw [append_lt_append_iff, List.cons_lt_cons_iff]
  exact ⟨fun hlt ↦ hlt.resolve_right fun hc ↦ h hc.1, .inl⟩

/-- The beginning of a list is lower than the list. -/
theorem lt_append_cons (l : List α) (c : α) (r : List α) : l < l ++ c :: r := by
  have hlt := (append_lt_append_iff l).mpr (List.nil_lt_cons c r)
  rwa [List.append_nil] at hlt

/-- What follows lists of one length does not matter where these differ. -/
theorem append_lt_append_of_lt {l m : List α} (hlen : l.length = m.length) (h : l < m)
    (x y : List α) : l ++ x < m ++ y := by
  rcases compare_cases l m with rfl | ⟨c, r, rfl⟩ | ⟨c, r, rfl⟩ | ⟨p, a, b, l', m', hab, rfl, rfl⟩
  · exact absurd h (lt_irrefl _)
  · simp at hlen
  · simp at hlen
  · rw [parted_lt_iff hab] at h
    rw [List.append_assoc, List.append_assoc, List.cons_append, List.cons_append,
      parted_lt_iff hab]
    exact h

/-- Against two numbers only the first two of a longer list count. -/
theorem cons_cons_cons_lt_pair {a b c x y : α} {l : List α} :
    a :: b :: c :: l < [x, y] ↔ [a, b] < [x, y] := by
  simp [List.cons_lt_cons_iff]

end Compare

end Dotted
