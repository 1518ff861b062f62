import OpenwrtFeed.Lib.Dotted
import OpenwrtFeed.Scripts.Bump

/-!
# Which versions are lower

`bump-source.sh` refuses "a version lower than the current one: devices would not upgrade to it".
The order that counts is apk's: the numbers from the left, a missing one being lower than any, then
`_pre` before nothing before `_p`, then the number behind it (`OwnVersion.apkKey`).

The script has no apk.  `verkey` appends the class and the number of the suffix as two more numbers
and lets `sort -V` compare the result (`OwnVersion.key`).  This is apk's order as long as the two
versions have the same number of components, or part before the shorter one ends.  If the shorter
one is the beginning of the longer one, then the script compares the class of the one with a
component of the other: `1.6` becomes `1.6.1.0` and `1.6.0` becomes `1.6.0.1.0`, which is lower.
`Outranks` is when this goes wrong, and `refuses_iff` says that it goes wrong only then.
-/

set_option autoImplicit false

namespace OpenwrtFeed

open Shell Assignments

/-! ## Versions -/

/-- What can follow the numbers of a version. -/
inductive Suffix where
  | none
  | pre (n : Nat)
  | p (n : Nat)
  deriving DecidableEq, Repr

/-- A version of the form `n(.n)*[_preN|_pN]`, without leading zeros. -/
structure OwnVersion where
  numbers : List Nat
  suffix : Suffix
  nonempty : numbers ≠ []
  deriving DecidableEq

namespace OwnVersion

/-- The version as it is written. -/
def text (v : OwnVersion) : Str :=
  Dotted.text v.numbers ++ match v.suffix with
    | .none => []
    | .pre n => "_pre".toList ++ Nat.toDigits 10 n
    | .p n => "_p".toList ++ Nat.toDigits 10 n

/-- The class of the suffix: `_pre (0) < release (1) < _p (2)`. -/
def rank (v : OwnVersion) : Nat :=
  match v.suffix with
  | .none => 1
  | .pre _ => 0
  | .p _ => 2

/-- The number of the suffix. -/
def number (v : OwnVersion) : Nat :=
  match v.suffix with
  | .none => 0
  | .pre n => n
  | .p n => n

/-- What apk compares. -/
def apkKey (v : OwnVersion) : List Nat ×ₗ Nat ×ₗ Nat :=
  toLex (v.numbers, toLex (v.rank, v.number))

/-- What the script compares. -/
def key (v : OwnVersion) : List Nat := v.numbers ++ [v.rank, v.number]

/-- The numbers of `v` are the beginning of those of `w`, and what follows them in `w` is lower than
the class and the number of the suffix of `v`. -/
def Outranks (v w : OwnVersion) : Prop :=
  v.numbers <+: w.numbers ∧ v.numbers.length < w.numbers.length ∧
    (w.key.drop v.numbers.length).take 2 < [v.rank, v.number]

instance (v w : OwnVersion) : Decidable (v.Outranks w) :=
  inferInstanceAs (Decidable (_ ∧ _ ∧ _))

/-! ## The two orders -/

theorem rank_number_inj {v w : OwnVersion} (hr : v.rank = w.rank) (hn : v.number = w.number) :
    v.suffix = w.suffix := by
  rcases v with ⟨_, v, _⟩
  rcases w with ⟨_, w, _⟩
  cases v <;> cases w <;> simp_all [rank, number]

theorem key_inj {v w : OwnVersion} (h : v.key = w.key) : v = w := by
  obtain ⟨hnum, hsuf⟩ := List.append_inj' h rfl
  rw [List.cons.injEq, List.cons.injEq] at hsuf
  have hs := rank_number_inj hsuf.1 hsuf.2.1
  cases v
  cases w
  simp_all

theorem apkKey_lt_iff {v w : OwnVersion} :
    v.apkKey < w.apkKey ↔ v.numbers < w.numbers ∨
      v.numbers = w.numbers ∧ [v.rank, v.number] < [w.rank, w.number] := by
  rw [apkKey, apkKey, Prod.Lex.toLex_lt_toLex, Prod.Lex.toLex_lt_toLex]
  simp [List.cons_lt_cons_iff]

/-- A version with more components has more to compare than the class and the number. -/
theorem key_lt_of_longer {v w : OwnVersion} {c : Nat} {r : List Nat}
    (h : w.numbers = v.numbers ++ c :: r) : w.key < v.key ↔ v.Outranks w := by
  have hkey : w.key = v.numbers ++ (c :: r ++ [w.rank, w.number]) := by
    rw [key, h, List.append_assoc]
  have hlen : v.numbers.length < w.numbers.length := by
    rw [h, List.length_append, List.length_cons]
    omega
  obtain ⟨a, b, l, hl⟩ : ∃ a b l, c :: r ++ [w.rank, w.number] = c :: a :: b :: l := by
    rcases r with _ | ⟨a, _ | ⟨b, r⟩⟩
    · exact ⟨_, _, [], rfl⟩
    · exact ⟨_, _, [w.number], rfl⟩
    · exact ⟨_, _, r ++ [w.rank, w.number], rfl⟩
  rw [Outranks, and_iff_right ⟨c :: r, h.symm⟩, and_iff_right hlen, hkey, hl, List.drop_left, key,
    Dotted.append_lt_append_iff, Dotted.cons_cons_cons_lt_pair]
  rfl

theorem not_outranks_of_length {v w : OwnVersion} (h : w.numbers.length ≤ v.numbers.length) :
    ¬v.Outranks w := fun hv ↦ absurd hv.2.1 (by omega)

theorem not_outranks_of_parted {v w : OwnVersion} {p x y : List Nat} {a b : Nat} (hab : a ≠ b)
    (hv : v.numbers = p ++ a :: x) (hw : w.numbers = p ++ b :: y) : ¬v.Outranks w := by
  rintro ⟨⟨r, hr⟩, -⟩
  rw [hv, hw, List.append_assoc, List.append_cancel_left_eq, List.cons_append,
    List.cons.injEq] at hr
  exact hab hr.1

/-- **The script's order is apk's**, unless one of the versions outranks the other. -/
theorem key_lt_iff_apkKey_lt {v w : OwnVersion} (hne : v ≠ w) :
    (w.key < v.key ↔ w.apkKey < v.apkKey) ↔ ¬v.Outranks w ∧ ¬w.Outranks v := by
  rw [apkKey_lt_iff]
  rcases Dotted.compare_cases v.numbers w.numbers with
    heq | ⟨c, r, hw⟩ | ⟨c, r, hv⟩ | ⟨p, a, b, x, y, hab, hv, hw⟩
  · have hlen : v.numbers.length = w.numbers.length := by rw [heq]
    refine iff_of_true ?_ ⟨not_outranks_of_length hlen.ge, not_outranks_of_length hlen.le⟩
    rw [key, key, heq, Dotted.append_lt_append_iff]
    simp
  · -- `w` has more components, so apk has `v` below it
    have hlt : v.numbers < w.numbers := by
      rw [hw]
      exact Dotted.lt_append_cons _ c r
    have hapk : ¬(w.numbers < v.numbers ∨
        w.numbers = v.numbers ∧ [w.rank, w.number] < [v.rank, v.number]) := by
      rintro (h | ⟨h, -⟩)
      · exact lt_asymm hlt h
      · exact hlt.ne h.symm
    have hlen : v.numbers.length ≤ w.numbers.length := by
      rw [hw, List.length_append]
      omega
    rw [key_lt_of_longer hw, iff_false_right hapk]
    exact ⟨fun h ↦ ⟨h, not_outranks_of_length hlen⟩, And.left⟩
  · -- `v` has more components, so apk has `w` below it
    have hlt : w.numbers < v.numbers := by
      rw [hv]
      exact Dotted.lt_append_cons _ c r
    have hlen : w.numbers.length ≤ v.numbers.length := by
      rw [hv, List.length_append]
      omega
    have hkey : w.key < v.key ↔ ¬v.key < w.key := by
      rw [not_lt]
      exact ⟨le_of_lt, fun hle ↦ lt_of_le_of_ne hle fun hc ↦ hne (key_inj hc).symm⟩
    have hapk : w.numbers < v.numbers ∨
        w.numbers = v.numbers ∧ [w.rank, w.number] < [v.rank, v.number] := .inl hlt
    rw [iff_true_right hapk, hkey, key_lt_of_longer hv]
    exact ⟨fun h ↦ ⟨not_outranks_of_length hlen, h⟩, And.right⟩
  · refine iff_of_true ?_ ⟨not_outranks_of_parted hab hv hw,
      not_outranks_of_parted hab.symm hw hv⟩
    have hnum : w.numbers ≠ v.numbers := by
      rw [hv, hw]
      simp [hab.symm]
    have happend : ∀ (z : Nat) (l m : List Nat), p ++ z :: l ++ m = p ++ z :: (l ++ m) := by simp
    rw [key, key, hv, hw, happend, happend, Dotted.parted_lt_iff hab.symm,
      Dotted.parted_lt_iff hab.symm]
    rw [hv, hw] at hnum
    exact ⟨.inl, fun h ↦ h.resolve_right fun hc ↦ hnum hc.1⟩

end OwnVersion

/-! ## The text of a version -/

/-- A text does not have a part with a character that is not in the text. -/
theorem any_tails_eq_false {c : Char} {p s : Str} (hp : c ∈ p) (h : c ∉ s) :
    s.tails.any (p <+: ·) = false := by
  rw [List.any_eq_false]
  intro t ht hc
  obtain ⟨u, rfl⟩ := of_decide_eq_true hc
  exact h (((List.mem_tails _ _).mp ht).mem (List.mem_append_left u hp))

theorem any_tails_append (p x y : Str) : (x ++ (p ++ y)).tails.any (p <+: ·) = true := by
  rw [List.any_eq_true]
  exact ⟨p ++ y, (List.mem_tails _ _).mpr (List.suffix_append _ _),
    decide_eq_true (List.prefix_append p y)⟩

section Verkey

variable {x ds : Str}

theorem verkey_release (hx : '_' ∉ x) : verkey x = x ++ ".1.0".toList := by
  rw [verkey, any_tails_eq_false (c := '_') (by decide) hx,
    any_tails_eq_false (c := '_') (by decide) hx]
  rfl

theorem verkey_pre (hds : ∀ c ∈ ds, c.isDigit = true) :
    verkey (x ++ ("_pre".toList ++ ds)) = x ++ ".0.".toList ++ ds := by
  have hnot : ∀ c : Char, c.isDigit = false → c ∉ ds := fun c hc h ↦ by
    rw [hds c h] at hc
    cases hc
  have htrim : trimShortest "_pre*".toList (x ++ ("_pre".toList ++ ds)) = x :=
    trimShortest_append (c := '_') (p := "pre".toList) (by decide) (by decide)
      (hnot '_' (by decide))
  have hdrop : dropLongest "*_pre".toList (x ++ "_pre".toList ++ ds) = ds :=
    dropLongest_append (c := 'e') (p := "_pr".toList) (by decide) (hnot 'e' (by decide))
  rw [List.append_assoc] at hdrop
  rw [verkey, any_tails_append, if_pos rfl, htrim, hdrop]

theorem verkey_p (hx : 'r' ∉ x) (hds : ∀ c ∈ ds, c.isDigit = true) :
    verkey (x ++ ("_p".toList ++ ds)) = x ++ ".2.".toList ++ ds := by
  have hnot : ∀ c : Char, c.isDigit = false → c ∉ ds := fun c hc h ↦ by
    rw [hds c h] at hc
    cases hc
  have hr : 'r' ∉ x ++ ("_p".toList ++ ds) := by
    simp [hx, hnot 'r' (by decide)]
  have htrim : trimShortest "_p*".toList (x ++ ("_p".toList ++ ds)) = x :=
    trimShortest_append (c := '_') (p := "p".toList) (by decide) (by decide)
      (hnot '_' (by decide))
  have hdrop : dropLongest "*_p".toList (x ++ "_p".toList ++ ds) = ds :=
    dropLongest_append (c := 'p') (p := "_".toList) (by decide) (hnot 'p' (by decide))
  rw [List.append_assoc] at hdrop
  rw [verkey, any_tails_eq_false (c := 'r') (by decide) hr, any_tails_append,
    if_neg Bool.false_ne_true, if_pos rfl, htrim, hdrop]

end Verkey

namespace OwnVersion

theorem notMem_numbers (v : OwnVersion) {c : Char} (hd : c.isDigit = false) (hdot : c ≠ '.') :
    c ∉ Dotted.text v.numbers := by
  intro h
  rcases Dotted.mem_text h with h | h
  · rw [hd] at h
    cases h
  · exact hdot h

/-- **`verkey`** writes the numbers, the class and the number of the suffix. -/
theorem verkey_text (v : OwnVersion) : verkey v.text = Dotted.text v.key := by
  have hkey : ∀ r n : Nat, Dotted.text (v.numbers ++ [r, n]) =
      Dotted.text v.numbers ++ '.' :: (Nat.toDigits 10 r ++ '.' :: Nat.toDigits 10 n) := by
    intro r n
    rw [Dotted.text_append v.nonempty (List.cons_ne_nil _ _),
      Dotted.text_cons r (List.cons_ne_nil n []), Dotted.text_singleton]
  rw [text, key, rank, number]
  cases hs : v.suffix with
  | none =>
    dsimp only
    rw [hkey, List.append_nil, verkey_release (v.notMem_numbers (by decide) (by decide))]
    rfl
  | pre n =>
    dsimp only
    rw [hkey, verkey_pre fun c hc ↦ Dotted.isDigit_of_mem hc, List.append_assoc]
    rfl
  | p n =>
    dsimp only
    rw [hkey, verkey_p (v.notMem_numbers (by decide) (by decide)) fun c hc ↦
      Dotted.isDigit_of_mem hc, List.append_assoc]
    rfl

theorem sortKey_verkey (v : OwnVersion) :
    sortKey (verkey v.text) = toLex (v.key, verkey v.text) := by
  have hkey : v.key ≠ [] := by simp [key]
  rw [sortKey, verkey_text]
  refine congrArg (fun l ↦ toLex (l, Dotted.text v.key)) ?_
  exact Dotted.ofDigitChars_splitOn_text hkey

theorem isNumber_digits (n : Nat) : isNumber (Nat.toDigits 10 n) = true := by
  rw [isNumber, Bool.and_eq_true, List.all_eq_true]
  refine ⟨by simp [Nat.toDigits_ne_nil], fun c hc ↦ ?_⟩
  exact Dotted.isDigit_of_mem hc

theorem isDotted_text {ns : List Nat} (h : ns ≠ []) : isDotted (Dotted.text ns) = true := by
  rw [isDotted, Dotted.splitOn_text h, List.all_map, List.all_eq_true]
  exact fun n _ ↦ isNumber_digits n

theorem isOwnVersion_text (v : OwnVersion) : isOwnVersion v.text = true := by
  have hnum : isDotted (Dotted.text v.numbers) = true := isDotted_text v.nonempty
  have hinits : ∀ u, Dotted.text v.numbers ∈ (Dotted.text v.numbers ++ u).inits := fun u ↦
    (List.mem_inits _ _).mpr (List.prefix_append _ _)
  have hdrop : ∀ (p : Str) (n : Nat), (Dotted.text v.numbers ++ (p ++ Nat.toDigits 10 n)).drop
      ((Dotted.text v.numbers).length + p.length) = Nat.toDigits 10 n := by
    intro p n
    rw [← List.append_assoc, ← List.length_append, List.drop_left]
  rw [isOwnVersion, text]
  cases hs : v.suffix with
  | none =>
    dsimp only
    rw [List.append_nil, hnum, Bool.true_or]
  | pre n =>
    dsimp only
    rw [Bool.or_eq_true, List.any_eq_true]
    refine .inr ⟨_, hinits _, ?_⟩
    have hrest := hdrop "_pre".toList n
    rw [show "_pre".toList.length = 4 from rfl] at hrest
    rw [hnum, List.drop_left, hrest, isNumber_digits]
    simp
  | p n =>
    dsimp only
    rw [Bool.or_eq_true, List.any_eq_true]
    refine .inr ⟨_, hinits _, ?_⟩
    have hrest := hdrop "_p".toList n
    rw [show "_p".toList.length = 2 from rfl] at hrest
    rw [hnum, List.drop_left, hrest, isNumber_digits]
    simp

theorem newline_notMem_text (v : OwnVersion) : '\n' ∉ v.text := by
  have hnum := v.notMem_numbers (c := '\n') (by decide) (by decide)
  have hdig : ∀ n, '\n' ∉ Nat.toDigits 10 n := fun n h ↦
    absurd (Dotted.isDigit_of_mem h) (by decide)
  rw [text]
  cases v.suffix <;> simp [hnum, hdig]

theorem text_ne_nil (v : OwnVersion) : v.text ≠ [] := by
  rw [text]
  simp [Dotted.text_ne_nil v.nonempty]

theorem lines_text (v : OwnVersion) : lines v.text = [v.text] := by
  rw [lines, List.splitOn_eq_singleton v.newline_notMem_text]
  simp [v.text_ne_nil]

theorem newline_notMem_key (v : OwnVersion) : '\n' ∉ Dotted.text v.key := fun h ↦ by
  rcases Dotted.mem_text h with h | h <;> exact absurd h (by decide)

/-- What is given to `sort -V`. -/
theorem lines_verkey (v w : OwnVersion) :
    lines (verkey v.text ++ '\n' :: verkey w.text) = [verkey v.text, verkey w.text] := by
  have hkey : w.key ≠ [] := by simp [key]
  rw [verkey_text, verkey_text, lines, List.splitOn_append_cons_self,
    List.splitOn_eq_singleton v.newline_notMem_key, List.splitOn_eq_singleton w.newline_notMem_key]
  simp [Dotted.text_ne_nil hkey]

theorem isDotted_verkey (v : OwnVersion) : isDotted (verkey v.text) = true := by
  rw [verkey_text]
  exact isDotted_text (by simp [key])

/-- The lower one of two versions, for `sort -V`. -/
theorem lowest_verkey (b : BumpInput) {v w : OwnVersion} (hne : v ≠ w) :
    b.lowest (lines (verkey v.text ++ '\n' :: verkey w.text)) = verkey w.text ↔ w.key < v.key := by
  have hkey : w.key ≠ v.key := fun hc ↦ hne (key_inj hc).symm
  have htext : verkey v.text ≠ verkey w.text := fun hc ↦ hkey <| by
    have hsort := congrArg sortKey hc
    simp only [sortKey_verkey, toLex_inj, Prod.mk.injEq] at hsort
    exact hsort.1.symm
  have hle : sortKey (verkey v.text) ≤ sortKey (verkey w.text) ↔ ¬ w.key < v.key := by
    rw [sortKey_verkey, sortKey_verkey, Prod.Lex.toLex_le_toLex, not_lt]
    exact ⟨fun h ↦ h.elim le_of_lt fun h ↦ h.1.le, fun h ↦ .inl (lt_of_le_of_ne h hkey.symm)⟩
  rw [lines_verkey, BumpInput.lowest, if_pos (by simp [isDotted_verkey])]
  simp only [List.insertionSort_cons, List.insertionSort_nil, List.orderedInsert_nil,
    List.orderedInsert_cons]
  split
  · rename_i h
    exact iff_of_false htext (hle.mp h)
  · rename_i h
    exact iff_of_true rfl (not_not.mp fun hc ↦ h (hle.mpr hc))

/-- The check of the script, on versions. -/
theorem refuses_text (b : BumpInput) {v w : OwnVersion} (hforce : b.force = false) (hne : v ≠ w) :
    b.refuses v.text w.text = true ↔ w.key < v.key := by
  rw [← lowest_verkey b hne, BumpInput.refuses, lines_text, hforce]
  simp [isOwnVersion_text]

end OwnVersion

/-! ## The refusal -/

/-- The version of the `Makefile`, `old_ver`. -/
def BumpInput.oldVersion (b : BumpInput) : Str := sedValues (assigned pkgVersion) b.makefile

/-- The new version and its commit, `ver` and `sha`; `none` if the script has stopped before. -/
def BumpInput.derived (b : BumpInput) : Option (Str × Str) := do
  if !b.makefile.any fun l ↦ "PKG_SOURCE_PROTO:=git".toList <+: l then none
  else if (sedValues (assignedNow "PKG_SOURCE_URL".toList) b.makefile).isEmpty then none
  else
    let up ← b.upstream
    let sha ← up.sha
    if up.twoLines && !up.onChannel then none
    else
      let dev := up.twoLines && b.onMain
      let desc ← if dev then up.describeDev else up.describeRelease
      let ver ← deriveVersion dev desc.text
      some (ver, sha)

/-- The two questions that are left once the version is known. -/
theorem accept_eq (b : BumpInput) : b.accept = b.derived.bind fun x ↦
    if b.oldVersion = x.1 then none
    else if b.refuses b.oldVersion x.1 then none
    else some x := by
  rw [BumpInput.accept, BumpInput.derived, BumpInput.oldVersion]
  split
  · rfl
  · split
    · rfl
    · cases b.upstream with
      | none => rfl
      | some up =>
        cases hsha : up.sha with
        | none => simp [hsha]
        | some sha =>
          simp only [Option.bind_eq_bind, Option.bind_some, hsha]
          split
          · rfl
          · split
            · rw [Option.bind_assoc]
              refine congrArg _ (funext fun desc ↦ ?_)
              rw [Option.bind_assoc]
              rfl
            · rw [Option.bind_assoc]
              refine congrArg _ (funext fun desc ↦ ?_)
              rw [Option.bind_assoc]
              rfl

/-- **When the refusal is right.**  Without `--force` a bump from one version to another is refused
exactly if apk has the new one below the old one, if and only if neither of the two outranks the
other. -/
theorem refuses_iff (b : BumpInput) (v w : OwnVersion) (sha : Str) (hforce : b.force = false)
    (hold : b.oldVersion = v.text) (hnew : b.derived = some (w.text, sha)) (hne : v ≠ w) :
    (b.accept = none ↔ w.apkKey < v.apkKey) ↔ ¬v.Outranks w ∧ ¬w.Outranks v := by
  have htext : v.text ≠ w.text := fun hc ↦ hne <| OwnVersion.key_inj <| by
    have hkey := congrArg (fun s ↦ sortKey (verkey s)) hc
    simp only [OwnVersion.sortKey_verkey, toLex_inj, Prod.mk.injEq] at hkey
    exact hkey.1
  have hnone : b.accept = none ↔ w.key < v.key := by
    rw [accept_eq, hnew, Option.bind_some, hold, if_neg htext,
      ← OwnVersion.refuses_text b hforce hne]
    split
    · rename_i hback
      exact iff_of_true rfl hback
    · rename_i hback
      exact iff_of_false (Option.some_ne_none _) hback
  rw [hnone, OwnVersion.key_lt_iff_apkKey_lt hne]

/-- A package at version `old`, and the tag `tag` of its source. -/
def bumpTo (old tag : String) : BumpInput where
  force := false
  onMain := false
  makefile := [("PKG_VERSION:=" ++ old).toList, "PKG_SOURCE_PROTO:=git".toList,
    "PKG_SOURCE_URL:=u".toList]
  upstream := some
    { sha := some ['c']
      twoLines := false
      onChannel := true
      describeDev := none
      describeRelease := some ⟨tag.toList, 0, ['c'], by decide⟩ }
  sdk := ⟨true, 0, 0, []⟩

/-- From `1.9` to `1.10`. -/
theorem refuses_iff_ten :
    (bumpTo "1.9" "v1.10").accept ≠ none ∧
      ((bumpTo "1.9" "v1.10").accept = none ↔
        (⟨[1, 10], .none, by decide⟩ : OwnVersion).apkKey <
          (⟨[1, 9], .none, by decide⟩ : OwnVersion).apkKey) := by
  refine ⟨by decide, ?_⟩
  exact (refuses_iff (bumpTo "1.9" "v1.10") ⟨[1, 9], .none, by decide⟩ ⟨[1, 10], .none, by decide⟩
    ['c'] rfl (by decide) (by decide) (by decide)).mpr (by decide)

/-- From `1.6` to `1.6.0`. -/
theorem refuses_upgrade :
    ¬∀ (b : BumpInput) (v w : OwnVersion) (sha : Str), b.force = false → b.oldVersion = v.text →
      b.derived = some (w.text, sha) → v ≠ w → (b.accept = none ↔ w.apkKey < v.apkKey) := by
  intro h
  have hiff := h (bumpTo "1.6" "v1.6.0") ⟨[1, 6], .none, by decide⟩ ⟨[1, 6, 0], .none, by decide⟩
    ['c'] rfl (by decide) (by decide) (by decide)
  exact absurd (hiff.mp (by decide)) (by decide)

end OpenwrtFeed
