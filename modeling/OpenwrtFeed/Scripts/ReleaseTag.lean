import OpenwrtFeed.Feed.Rollback
import OpenwrtFeed.Lib.Dotted
import OpenwrtFeed.Lib.Loop

/-!
# The tag of a release

`release-stable.sh` tags a release with the day, and with a counter if the day has a release
already: `2026.10.04`, `2026.10.04.2` and so on, "counting up past every tag that exists".  The
build of the tag is published by `publish-feed.sh`, if no release tag is newer.

The loop that counts up stops at the first tag that is free.  If a tag of the day has been deleted,
this is not the last one, and what has been tagged and built is then not published because a newer
release exists.

Whether a tag exists is asked with `printf | grep -qxF`, under `pipefail`.  `grep -q` leaves when it
has found the line, and if `printf` has not written the whole list by then, it is stopped by the
closed pipe and the answer is no.  Then the loop ends at a tag that is there already.

`pick_iff` says that these, and a year that is not in this century, are all that can go wrong.
-/

set_option autoImplicit false

namespace OpenwrtFeed

open Shell

/-! ## Days and tags -/

/-- A number with zeros in front of it, up to a width. -/
def pad (w n : Nat) : Str :=
  List.replicate (w - (Nat.toDigits 10 n).length) '0' ++ Nat.toDigits 10 n

/-- A day. -/
structure Day where
  year : Nat
  month : Nat
  day : Nat
  month_le : 1 ≤ month ∧ month ≤ 12
  day_le : 1 ≤ day ∧ day ≤ 31

/-- `date -u +%Y.%m.%d` -/
def Day.text (d : Day) : Str := pad 4 d.year ++ '.' :: (pad 2 d.month ++ '.' :: pad 2 d.day)

def Day.numbers (d : Day) : List Nat := [d.year, d.month, d.day]

/-- The tag of the day with a counter. -/
def Day.counted (d : Day) (n : Nat) : Str := d.text ++ '.' :: Nat.toDigits 10 n

/-- The numbers in a tag. -/
def tagNumbers (s : Str) : List Nat := (s.splitOn '.').map numeral

/-- The tags there are. -/
structure Tags where
  /-- `git tag -l` -/
  here : List Str
  /-- `git ls-remote --tags` -/
  remote : Remote

/-- `taken`; the order does not matter. -/
def Tags.taken (g : Tags) : List Str := g.here ++ g.remote.tags.map fun t ↦ tagName t.1

/-- `printf | grep -qxF`; `cut` says whether `printf` is stopped when `grep` has found the tag. -/
def grepTag (taken : List Str) (tag : Str) (cut : Bool) : Bool := taken.contains tag && !cut

/-- The loop, for at most `fuel` iterations.  `cut n` is about the question that is asked when the
counter is `n`. -/
def Day.pick (d : Day) (taken : List Str) (cut : Nat → Bool) (fuel : Nat) : Option Str :=
  (Loop.run (fun s : Str × Nat ↦ grepTag taken s.1 (cut s.2))
    (fun s ↦ .next (d.counted s.2, s.2 + 1)) fuel (d.text, 2)).map Prod.fst

/-- A tag is new, and its build is published as long as no other release is made. -/
structure Tags.Accepts (g : Tags) (tag : Str) : Prop where
  release : isReleaseTag tag = true
  new : tag ∉ g.taken
  above : ∀ u ∈ g.taken, isReleaseTag u = true → sortKey u < sortKey tag
  published : ∀ (o : FeedOptions) (r : Remote) (n : Nat), o.channel = stableName → o.tag = tag →
    r.tags = g.remote.tags ++ [(tag, o.sha)] →
    o.ask r n .waiting = .tagged ∧ o.ask r n .tagged = .passed n

/-! ## What a release tag looks like -/

theorem numeral_pad (w n : Nat) : numeral (pad w n) = n := by
  show Nat.ofDigitChars 10 (pad w n) 0 = n
  rw [pad, Nat.ofDigitChars_append, Nat.ofDigitChars_replicate_zero, Nat.mul_zero]
  exact Nat.ofDigitChars_ten_toDigits

theorem pad_digits (w n : Nat) : ∀ c ∈ pad w n, c.isDigit = true := by
  intro c hc
  rcases List.mem_append.mp hc with hc | hc
  · rw [List.eq_of_mem_replicate hc]
    rfl
  · exact Dotted.isDigit_of_mem hc

theorem dot_notMem_of_digits {s : Str} (h : ∀ c ∈ s, c.isDigit = true) : '.' ∉ s := fun hc ↦
  absurd (h _ hc) (by decide)

theorem tagNumbers_cons {s t : Str} (h : ∀ c ∈ s, c.isDigit = true) :
    tagNumbers (s ++ '.' :: t) = numeral s :: tagNumbers t := by
  rw [tagNumbers, List.splitOn_append_cons_self, List.splitOn_eq_singleton (dot_notMem_of_digits h)]
  rfl

theorem tagNumbers_digits {s : Str} (h : ∀ c ∈ s, c.isDigit = true) :
    tagNumbers s = [numeral s] := by
  rw [tagNumbers, List.splitOn_eq_singleton (dot_notMem_of_digits h)]
  rfl

theorem Day.tagNumbers_text (d : Day) : tagNumbers d.text = d.numbers := by
  rw [Day.text, tagNumbers_cons (pad_digits _ _), tagNumbers_cons (pad_digits _ _),
    tagNumbers_digits (pad_digits _ _), numeral_pad, numeral_pad, numeral_pad]
  rfl

theorem Day.tagNumbers_dot (d : Day) {N : Str} (h : ∀ c ∈ N, c.isDigit = true) :
    tagNumbers (d.text ++ '.' :: N) = d.numbers ++ [numeral N] := by
  rw [tagNumbers, List.splitOn_append_cons_self, List.map_append]
  exact congrArg₂ (· ++ ·) d.tagNumbers_text (tagNumbers_digits h)

/-- A release tag, field by field. -/
structure ReleaseFields (s : Str) where
  (year month day rest : Str)
  eq : s = year ++ '.' :: (month ++ '.' :: (day ++ rest))
  lengths : year.length = 4 ∧ month.length = 2 ∧ day.length = 2
  digits : (∀ c ∈ year, c.isDigit = true) ∧ (∀ c ∈ month, c.isDigit = true) ∧
    ∀ c ∈ day, c.isDigit = true
  century : 2000 ≤ numeral year ∧ numeral year < 2100
  counter : rest = [] ∨ ∃ N, rest = '.' :: N ∧ N ≠ [] ∧ ∀ c ∈ N, c.isDigit = true

theorem isDigit_eq (c : Char) : isDigit c = c.isDigit := rfl

theorem releaseFields {s : Str} (h : isReleaseTag s = true) : Nonempty (ReleaseFields s) := by
  unfold isReleaseTag at h
  split at h
  · rename_i y₁ y₂ m₁ m₂ d₁ d₂ rest
    simp only [List.all_cons, List.all_nil, Bool.and_true, Bool.and_eq_true, isDigit_eq] at h
    obtain ⟨⟨h₁, h₂, h₃, h₄, h₅, h₆⟩, hrest⟩ := h
    refine ⟨⟨['2', '0', y₁, y₂], [m₁, m₂], [d₁, d₂], rest, rfl, ⟨rfl, rfl, rfl⟩,
      ⟨by simpa using ⟨h₁, h₂⟩, by simpa using ⟨h₃, h₄⟩, by simpa using ⟨h₅, h₆⟩⟩, ?_, ?_⟩⟩
    · obtain ⟨i, hi, rfl⟩ := Dotted.exists_digitChar h₁
      obtain ⟨j, hj, rfl⟩ := Dotted.exists_digitChar h₂
      have hval : numeral ['2', '0', i.digitChar, j.digitChar] = 2000 + 10 * i + j := by
        show Nat.ofDigitChars 10 (['2', '0', i.digitChar] ++ [j.digitChar]) 0 = _
        rw [Dotted.ofDigitChars_concat hj]
        show 10 * Nat.ofDigitChars 10 (['2', '0'] ++ [i.digitChar]) 0 + j = _
        rw [Dotted.ofDigitChars_concat hi]
        show 10 * (10 * 20 + i) + j = _
        omega
      omega
    · split at hrest
      · exact .inl rfl
      · rename_i N
        simp only [Bool.and_eq_true, decide_eq_true_eq, List.all_eq_true, isDigit_eq] at hrest
        exact .inr ⟨N, rfl, by simpa using hrest.1, hrest.2⟩
      · cases hrest
  · cases h

theorem pad_two {n : Nat} (h : n < 100) :
    pad 2 n = [(n / 10).digitChar, (n % 10).digitChar] := by
  have hall : ∀ n < 100, pad 2 n = [(n / 10).digitChar, (n % 10).digitChar] := by decide
  exact hall n h

theorem pad_year {n : Nat} (h : 2000 ≤ n ∧ n < 2100) :
    pad 4 n = ['2', '0', ((n - 2000) / 10).digitChar, ((n - 2000) % 10).digitChar] := by
  have hall : ∀ k < 100, pad 4 (2000 + k) = ['2', '0', (k / 10).digitChar, (k % 10).digitChar] := by
    decide
  rw [← hall _ (by omega), Nat.add_sub_cancel' h.1]

theorem isDigit_digitChar {n : Nat} (h : n < 10) : isDigit n.digitChar = true := by
  rw [isDigit_eq, Nat.isDigit_digitChar]
  exact decide_eq_true h

/-- The tags of a day are release tags in this century. -/
theorem Day.isReleaseTag_text (d : Day) (hyear : 2000 ≤ d.year ∧ d.year < 2100) :
    isReleaseTag d.text = true ∧ ∀ n, isReleaseTag (d.counted n) = true := by
  have hmonth := d.month_le
  have hday := d.day_le
  have hdigits : [((d.year - 2000) / 10).digitChar, ((d.year - 2000) % 10).digitChar,
      (d.month / 10).digitChar, (d.month % 10).digitChar, (d.day / 10).digitChar,
      (d.day % 10).digitChar].all isDigit = true := by
    rw [List.all_eq_true]
    simp only [List.forall_mem_cons]
    refine ⟨isDigit_digitChar (by omega), isDigit_digitChar (by omega),
      isDigit_digitChar (by omega), isDigit_digitChar (by omega), isDigit_digitChar (by omega),
      isDigit_digitChar (by omega), by simp⟩
  have htext : d.text = ['2', '0', ((d.year - 2000) / 10).digitChar,
      ((d.year - 2000) % 10).digitChar, '.', (d.month / 10).digitChar, (d.month % 10).digitChar,
      '.', (d.day / 10).digitChar, (d.day % 10).digitChar] := by
    rw [Day.text, pad_year hyear, pad_two (by omega), pad_two (by omega)]
    rfl
  refine ⟨?_, fun n ↦ ?_⟩
  · rw [htext, isReleaseTag, hdigits]
    rfl
  · rw [Day.counted, htext]
    simp only [List.cons_append, List.nil_append]
    rw [isReleaseTag, hdigits, Bool.true_and, Bool.and_eq_true, List.all_eq_true]
    exact ⟨by simp [Nat.toDigits_ne_nil], fun c hc ↦ Dotted.isDigit_of_mem hc⟩

/-- And in no other. -/
theorem Day.year_of_release (d : Day) {rest : Str} (h : isReleaseTag (d.text ++ rest) = true) :
    2000 ≤ d.year ∧ d.year < 2100 := by
  obtain ⟨f⟩ := releaseFields h
  have hbefore : beforeFirst '.' (d.text ++ rest) = pad 4 d.year := by
    rw [Day.text, List.append_assoc, List.cons_append]
    exact beforeFirst_append (dot_notMem_of_digits (pad_digits _ _)) _
  have hyear : pad 4 d.year = f.year := by
    rw [← hbefore, ← beforeFirst_append (dot_notMem_of_digits f.digits.1)
      (f.month ++ '.' :: (f.day ++ f.rest))]
    exact congrArg (beforeFirst '.') f.eq
  have hcentury := f.century
  rw [← hyear, numeral_pad] at hcentury
  exact hcentury

/-- A release tag of the day is the day, with or without a counter. -/
theorem Day.eq_of_numbers (d : Day) (hyear : 2000 ≤ d.year ∧ d.year < 2100) {s : Str}
    (f : ReleaseFields s) (h : [numeral f.year, numeral f.month, numeral f.day] = d.numbers) :
    s = d.text ++ f.rest := by
  have hmonth := d.month_le
  have hday := d.day_le
  simp only [Day.numbers, List.cons.injEq, and_true] at h
  have hy : f.year = pad 4 d.year := by
    refine Dotted.ofDigitChars_inj f.digits.1 (pad_digits _ _) ?_ ?_
    · rw [f.lengths.1, pad_year hyear]
      rfl
    · exact h.1.trans (numeral_pad 4 d.year).symm
  have hm : f.month = pad 2 d.month := by
    refine Dotted.ofDigitChars_inj f.digits.2.1 (pad_digits _ _) ?_ ?_
    · rw [f.lengths.2.1, pad_two (by omega)]
      rfl
    · exact h.2.1.trans (numeral_pad 2 d.month).symm
  have hd : f.day = pad 2 d.day := by
    refine Dotted.ofDigitChars_inj f.digits.2.2 (pad_digits _ _) ?_ ?_
    · rw [f.lengths.2.2, pad_two (by omega)]
      rfl
    · exact h.2.2.trans (numeral_pad 2 d.day).symm
  have heq := f.eq
  rw [hy, hm, hd] at heq
  refine heq.trans ?_
  rw [Day.text]
  simp

theorem ReleaseFields.tagNumbers_take {s : Str} (f : ReleaseFields s) :
    ∃ l, tagNumbers s = [numeral f.year, numeral f.month, numeral f.day] ++ l := by
  have heq := f.eq
  rcases f.counter with h | ⟨N, h, -, hN⟩
  · refine ⟨[], ?_⟩
    rw [h, List.append_nil] at heq
    refine (congrArg tagNumbers heq).trans ?_
    rw [tagNumbers_cons f.digits.1, tagNumbers_cons f.digits.2.1, tagNumbers_digits f.digits.2.2]
    rfl
  · refine ⟨[numeral N], ?_⟩
    rw [h] at heq
    refine (congrArg tagNumbers heq).trans ?_
    rw [tagNumbers_cons f.digits.1, tagNumbers_cons f.digits.2.1, tagNumbers_cons f.digits.2.2,
      tagNumbers_digits hN]
    rfl

/-! ## The loop -/

section Loop

variable (d : Day) (taken : List Str) (cut : Nat → Bool)

/-- The tags in the order in which they are tried, from 1. -/
def Day.tag (i : Nat) : Str := if i ≤ 1 then d.text else d.counted i

theorem Day.tag_of_lt {i : Nat} (h : 1 < i) : d.tag i = d.counted i := if_neg (by omega)

theorem Day.tagNumbers_counted (n : Nat) : tagNumbers (d.counted n) = d.numbers ++ [n] := by
  rw [Day.counted, d.tagNumbers_dot fun c hc ↦ Dotted.isDigit_of_mem hc]
  exact congrArg (d.numbers ++ [·]) Nat.ofDigitChars_ten_toDigits

theorem Day.counted_injective : Function.Injective d.counted := by
  intro i j h
  have hnum := congrArg tagNumbers h
  rw [d.tagNumbers_counted, d.tagNumbers_counted] at hnum
  simpa using hnum

/-- The first tag that is free. -/
def Day.Free (k : Nat) : Prop :=
  1 ≤ k ∧ d.tag k ∉ taken ∧ ∀ i, 1 ≤ i → i < k → d.tag i ∈ taken

/-- No `printf` is stopped as long as all tags that were tried are there. -/
def Day.Uncut : Prop :=
  ∀ n, 2 ≤ n → (∀ i, 1 ≤ i → i < n → d.tag i ∈ taken) → cut n = false

/-- The loop goes on behind the `i`-th tag, for which the counter is one more. -/
def Day.Passes (i : Nat) : Prop := grepTag taken (d.tag i) (cut (i + 1)) = true

theorem Day.passes_iff {i : Nat} :
    d.Passes taken cut i ↔ d.tag i ∈ taken ∧ cut (i + 1) = false := by
  simp [Day.Passes, grepTag]

/-- The tag at which the loop ends. -/
def Day.Last (k : Nat) : Prop :=
  1 ≤ k ∧ ¬ d.Passes taken cut k ∧ ∀ i, 1 ≤ i → i < k → d.Passes taken cut i

theorem Day.exists_last : ∃ k, d.Last taken cut k := by
  have hex : ∃ k, 1 ≤ k ∧ ¬ d.Passes taken cut k := by
    obtain ⟨s, ⟨i, rfl⟩, hs⟩ := (Set.infinite_range_of_injective
      (d.counted_injective.comp (add_left_injective 2))).exists_notMem_finset taken.toFinset
    rw [List.mem_toFinset, Function.comp_apply] at hs
    refine ⟨i + 2, by omega, fun hpass ↦ hs ?_⟩
    rw [← d.tag_of_lt (by omega)]
    exact ((d.passes_iff taken cut).mp hpass).1
  classical
  obtain ⟨h₁, h₂⟩ := Nat.find_spec hex
  refine ⟨Nat.find hex, h₁, h₂, fun i hi hlt ↦ ?_⟩
  by_contra hc
  exact Nat.find_min hex hlt ⟨hi, hc⟩

variable {d taken cut}

/-- From the `i`-th tag the loop comes to the last one. -/
theorem Day.run_tag {i k : Nat} (hi : 1 ≤ i) (hik : i ≤ k) (hk : ¬ d.Passes taken cut k)
    (hpass : ∀ j, i ≤ j → j < k → d.Passes taken cut j) :
    Loop.run (fun s : Str × Nat ↦ grepTag taken s.1 (cut s.2))
      (fun s ↦ .next (d.counted s.2, s.2 + 1)) (k - i) (d.tag i, i + 1) =
        some (d.tag k, k + 1) := by
  induction hn : k - i generalizing i with
  | zero =>
    obtain rfl : i = k := by omega
    exact Loop.run_done (Bool.not_eq_true _ ▸ hk) 0
  | succ n ih =>
    have hrec := ih (i := i + 1) (by omega) (by omega) (fun j hj ↦ hpass j (by omega)) (by omega)
    rw [d.tag_of_lt (by omega)] at hrec
    have hcond := hpass i le_rfl (by omega)
    rw [Day.Passes] at hcond
    rw [Loop.run, if_pos hcond]
    exact hrec

theorem Day.pick_of_last {k : Nat} (h : d.Last taken cut k) :
    d.pick taken cut (k - 1) = some (d.tag k) := by
  have hrun := Day.run_tag le_rfl h.1 h.2.1 h.2.2
  rw [Day.pick, show d.text = d.tag 1 from rfl, hrun]
  rfl

/-- The loop ends with no other. -/
theorem Day.eq_of_pick {k fuel : Nat} {s : Str} (h : d.Last taken cut k)
    (hs : d.pick taken cut fuel = some s) : s = d.tag k := by
  obtain ⟨r, hr, rfl⟩ := Option.map_eq_some_iff.mp hs
  obtain ⟨r', hr', hk⟩ := Option.map_eq_some_iff.mp (Day.pick_of_last h)
  rw [Loop.run_unique hr hr', hk]

/-- If the tag at which the loop ends is new, it is the first one that is free. -/
theorem Day.Last.free {k : Nat} (h : d.Last taken cut k) (hnew : d.tag k ∉ taken) :
    d.Free taken k :=
  ⟨h.1, hnew, fun i hi hlt ↦ ((d.passes_iff taken cut).mp (h.2.2 i hi hlt)).1⟩

/-- It is new exactly when no `printf` was stopped. -/
theorem Day.Last.notMem_iff {k : Nat} (h : d.Last taken cut k) :
    d.tag k ∉ taken ↔ d.Uncut taken cut := by
  constructor
  · intro hnew n hn htaken
    have hlt : n - 1 < k := by
      by_contra hc
      exact hnew (htaken k h.1 (by omega))
    have hpass := (d.passes_iff taken cut).mp (h.2.2 (n - 1) (by omega) hlt)
    rw [Nat.sub_add_cancel (by omega)] at hpass
    exact hpass.2
  · intro huncut hmem
    refine h.2.1 ((d.passes_iff taken cut).mpr ⟨hmem, huncut (k + 1) ?_ fun i hi hlt ↦ ?_⟩)
    · exact Nat.succ_le_succ h.1
    · rcases Nat.lt_succ_iff_lt_or_eq.mp hlt with hlt | rfl
      · exact ((d.passes_iff taken cut).mp (h.2.2 i hi hlt)).1
      · exact hmem

end Loop

/-! ## The check -/

theorem sortKey_lt_of_numbers {s t : Str} (h : tagNumbers s < tagNumbers t) :
    sortKey s < sortKey t := Prod.Lex.toLex_lt_toLex.mpr (.inl h)

theorem numbers_le_of_sortKey {s t : Str} (h : sortKey s < sortKey t) :
    tagNumbers s ≤ tagNumbers t := by
  rcases Prod.Lex.toLex_lt_toLex.mp h with h | h
  · exact le_of_lt h
  · exact le_of_eq h.1

/-- A new tag that is above the others is accepted. -/
theorem Tags.accepts_of_above {g : Tags} {tag : Str} (hrel : isReleaseTag tag = true)
    (hnew : tag ∉ g.taken)
    (habove : ∀ u ∈ g.taken, isReleaseTag u = true → sortKey u < sortKey tag) :
    g.Accepts tag where
  release := hrel
  new := hnew
  above := habove
  published := by
    rintro o r n hch rfl hr
    have hmem : ∀ t ∈ g.remote.tags, tagName t.1 ∈ g.taken := fun t ht ↦
      List.mem_append_right _ (List.mem_map.mpr ⟨t, ht, rfl⟩)
    have hsha : r.tagsha o.tag = o.sha := by
      have hnone : g.remote.tags.find? (fun t ↦ t.1 = o.tag) = none := by
        rw [List.find?_eq_none]
        intro t ht hc
        have hname := hmem t ht
        rw [of_decide_eq_true hc, tagName_of_release hrel] at hname
        exact hnew hname
      rw [Remote.tagsha, hr, List.find?_append, hnone]
      simp
    have hreleases : r.releases = g.remote.releases ++ [o.tag] := by
      rw [Remote.releases, hr, List.map_append, List.filter_append, Remote.releases]
      simp [tagName_of_release hrel, hrel]
    have hlatest : r.latest = some o.tag := by
      cases hl : r.latest with
      | none =>
        rw [latest_eq_none hl] at hreleases
        simp at hreleases
      | some l =>
        obtain ⟨hl₁, hl₂⟩ := latest_eq_some hl
        have hle := hl₂ o.tag (by rw [hreleases]; simp)
        rw [hreleases] at hl₁
        rcases List.mem_append.mp hl₁ with hmem' | hmem'
        · obtain ⟨hmap, hrel'⟩ := List.mem_filter.mp hmem'
          obtain ⟨t, ht, rfl⟩ := List.mem_map.mp hmap
          exact absurd hle (not_le.mpr (habove _ (hmem t ht) hrel'))
        · rw [List.mem_singleton.mp hmem']
    simp [FeedOptions.ask, hch, hsha, hlatest]

/-- No tag of the day has been left out: with a counter there are the plain one and all counters
below. -/
def Day.Gapless (d : Day) (taken : List Str) : Prop :=
  ∀ N, isReleaseTag (d.text ++ '.' :: N) = true → d.text ++ '.' :: N ∈ taken →
    d.text ∈ taken ∧ ∀ j, 2 ≤ j → j < numeral N → d.counted j ∈ taken

/-- In a day without gaps the first free tag is above the others. -/
theorem Day.above_of_gapless {d : Day} {taken : List Str} {k : Nat} (h : d.Free taken k)
    (hyear : 2000 ≤ d.year ∧ d.year < 2100) (hgap : d.Gapless taken)
    (hday : ∀ u ∈ taken, isReleaseTag u = true → (tagNumbers u).take 3 ≤ d.numbers) {u : Str}
    (hu : u ∈ taken) (hrel : isReleaseTag u = true) : sortKey u < sortKey (d.tag k) := by
  obtain ⟨l, hl⟩ : ∃ l, tagNumbers (d.tag k) = d.numbers ++ l := by
    rw [Day.tag]
    split
    · exact ⟨[], by rw [d.tagNumbers_text, List.append_nil]⟩
    · exact ⟨[k], d.tagNumbers_counted k⟩
  obtain ⟨f⟩ := releaseFields hrel
  obtain ⟨l', hl'⟩ := f.tagNumbers_take
  have hle := hday u hu hrel
  rw [hl', List.take_append_of_le_length (by simp)] at hle
  rcases lt_or_eq_of_le hle with hlt | heq
  · -- the tag of an earlier day
    have hlt : [numeral f.year, numeral f.month, numeral f.day] < d.numbers := hlt
    refine sortKey_lt_of_numbers ?_
    rw [hl, hl']
    exact Dotted.append_lt_append_of_lt (by rfl) hlt l' l
  · have hu' := d.eq_of_numbers hyear f heq
    rcases f.counter with hrest | ⟨N, hrest, hne, hN⟩
    · -- the day itself: the first free tag has a counter
      rw [hrest, List.append_nil] at hu'
      have hk : 1 < k := by
        by_contra hc
        refine h.2.1 ?_
        rw [Day.tag, if_pos (by omega), ← hu']
        exact hu
      refine sortKey_lt_of_numbers ?_
      rw [hu', d.tagNumbers_text, d.tag_of_lt hk, d.tagNumbers_counted]
      exact Dotted.lt_append_cons _ k []
    · -- the day with a counter: all below it are taken
      rw [hrest] at hu'
      rw [hu'] at hu hrel
      obtain ⟨htext, hbelow⟩ := hgap N hrel hu
      have hk : 1 < k := by
        by_contra hc
        refine h.2.1 ?_
        rw [Day.tag, if_pos (by omega)]
        exact htext
      have hNk : numeral N ≤ k := by
        by_contra hc
        refine h.2.1 ?_
        rw [d.tag_of_lt hk]
        exact hbelow k hk (by omega)
      rw [hu', d.tag_of_lt hk]
      rcases lt_or_eq_of_le hNk with hlt | heqk
      · refine sortKey_lt_of_numbers ?_
        rw [d.tagNumbers_dot hN, d.tagNumbers_counted, Dotted.append_lt_append_iff]
        exact List.cons_lt_cons_iff.mpr (.inl hlt)
      · -- the same counter with zeros in front
        refine Prod.Lex.toLex_lt_toLex.mpr (.inr ⟨?_, ?_⟩)
        · show tagNumbers _ = tagNumbers _
          rw [d.tagNumbers_dot hN, d.tagNumbers_counted, heqk]
        · have hne' : N ≠ Nat.toDigits 10 (Nat.ofDigitChars 10 N 0) := by
            intro hc
            refine h.2.1 ?_
            rw [d.tag_of_lt hk, Day.counted, ← heqk]
            rw [hc] at hu
            exact hu
          have hlt := Dotted.lt_toDigits hN hne (by show 0 < numeral N; omega) hne'
          show d.text ++ '.' :: N < d.counted k
          rw [Day.counted, Dotted.append_lt_append_iff, ← heqk]
          exact List.cons_lt_cons_self.mpr hlt

/-- What follows the day in a release tag is a number. -/
theorem Day.counter_digits (d : Day) {N : Str} (h : isReleaseTag (d.text ++ '.' :: N) = true) :
    ∀ c ∈ N, c.isDigit = true := by
  have hyear := d.year_of_release h
  obtain ⟨f⟩ := releaseFields h
  obtain ⟨l, hl⟩ := f.tagNumbers_take
  have hnum : tagNumbers (d.text ++ '.' :: N) = d.numbers ++ tagNumbers N := by
    rw [tagNumbers, List.splitOn_append_cons_self, List.map_append]
    exact congrArg (· ++ tagNumbers N) d.tagNumbers_text
  obtain ⟨hfields, -⟩ := List.append_inj (hl.symm.trans hnum) rfl
  have hrest := List.append_cancel_left (d.eq_of_numbers hyear f hfields)
  rcases f.counter with hc | ⟨N', hc, -, hN'⟩
  · rw [hc] at hrest
    cases hrest
  · rw [hc] at hrest
    obtain ⟨-, rfl⟩ := List.cons.inj hrest
    exact hN'

/-- If the first free tag is above the others, then the day has no gaps. -/
theorem Day.gapless_of_above {d : Day} {taken : List Str} {k : Nat} (h : d.Free taken k)
    (habove : ∀ u ∈ taken, isReleaseTag u = true → sortKey u < sortKey (d.tag k)) :
    d.Gapless taken := by
  intro N hrel hN
  have hdigits := d.counter_digits hrel
  have hle := numbers_le_of_sortKey (habove _ hN hrel)
  rw [d.tagNumbers_dot hdigits] at hle
  have hk : 1 < k := by
    by_contra hc
    rw [Day.tag, if_pos (by omega), d.tagNumbers_text] at hle
    exact absurd (Dotted.lt_append_cons _ _ []) (not_lt.mpr hle)
  rw [d.tag_of_lt hk, d.tagNumbers_counted] at hle
  have hNk : numeral N ≤ k := by
    by_contra hc
    refine absurd hle (not_le.mpr ?_)
    rw [Dotted.append_lt_append_iff]
    exact List.cons_lt_cons_iff.mpr (.inl (by omega))
  refine ⟨h.2.2 1 le_rfl hk, fun j hj hjN ↦ ?_⟩
  rw [← d.tag_of_lt (by omega)]
  exact h.2.2 j (by omega) (by omega)

/-- **When a release is published.**  The loop ends, and what it ends with is a new release tag
above all others, whose build is accepted, if and only if the year is in this century, no tag of the
day is missing below another one, and no `printf` is stopped before the loop comes to a free tag. -/
theorem pick_iff (d : Day) (g : Tags) (cut : Nat → Bool)
    (hday : ∀ u ∈ g.taken, isReleaseTag u = true → (tagNumbers u).take 3 ≤ d.numbers) :
    (∃ fuel tag, d.pick g.taken cut fuel = some tag ∧ g.Accepts tag) ↔
      (2000 ≤ d.year ∧ d.year < 2100) ∧ d.Gapless g.taken ∧ d.Uncut g.taken cut := by
  obtain ⟨k, hk⟩ := d.exists_last g.taken cut
  constructor
  · rintro ⟨fuel, tag, hpick, hacc⟩
    obtain rfl := Day.eq_of_pick hk hpick
    refine ⟨?_, Day.gapless_of_above (hk.free hacc.new) hacc.above, hk.notMem_iff.mp hacc.new⟩
    have hrel := hacc.release
    rw [Day.tag] at hrel
    split at hrel
    · rw [← List.append_nil d.text] at hrel
      exact d.year_of_release hrel
    · exact d.year_of_release hrel
  · rintro ⟨hyear, hgap, huncut⟩
    have hfree := hk.free (hk.notMem_iff.mpr huncut)
    refine ⟨k - 1, d.tag k, Day.pick_of_last hk, Tags.accepts_of_above ?_ hfree.2.1 ?_⟩
    · obtain ⟨htext, hcounted⟩ := d.isReleaseTag_text hyear
      rw [Day.tag]
      split
      · exact htext
      · exact hcounted k
    · exact fun u hu hrel ↦ Day.above_of_gapless hfree hyear hgap hday hu hrel

/-- The fifth of October 2026. -/
def sampleDay : Day := ⟨2026, 10, 5, by decide, by decide⟩

/-- The tags with these names, all of them on the remote. -/
def sampleTags (names : List String) (h : ∀ t ∈ names.map String.toList, '\n' ∉ t) : Tags where
  here := []
  remote :=
    { tip := []
      tags := names.map fun t ↦ (t.toList, ['c'])
      names := by
        intro t ht
        obtain ⟨n, hn, rfl⟩ := List.mem_map.mp ht
        exact h _ (List.mem_map.mpr ⟨n, hn, rfl⟩) }

/-- The second release of a day.  No `printf` is stopped. -/
theorem pick_iff_second :
    ∃ fuel tag, sampleDay.pick (sampleTags ["2026.10.04.3", "2026.10.05"] (by decide)).taken
      (fun _ ↦ false) fuel = some tag ∧
        (sampleTags ["2026.10.04.3", "2026.10.05"] (by decide)).Accepts tag := by
  refine (pick_iff sampleDay _ _ ?_).mpr ⟨by decide, ?_, fun _ _ _ ↦ rfl⟩
  · decide
  · -- no tag of the day has a counter
    intro N _ hmem
    have hnone : ∀ u ∈ (sampleTags ["2026.10.04.3", "2026.10.05"] (by decide)).taken,
        u.take 10 = sampleDay.text → u.length ≤ 10 := by decide
    have hlen := hnone _ hmem (List.take_left' (by decide))
    rw [List.length_append, show sampleDay.text.length = 10 by decide, List.length_cons] at hlen
    omega

/-- A day on which the second of three releases has been deleted. -/
theorem pick_below_deleted :
    ¬∀ (d : Day) (g : Tags),
      (∀ u ∈ g.taken, isReleaseTag u = true → (tagNumbers u).take 3 ≤ d.numbers) →
      ∃ fuel tag, d.pick g.taken (fun _ ↦ false) fuel = some tag ∧ g.Accepts tag := by
  intro h
  obtain ⟨fuel, tag, hpick, hacc⟩ := h sampleDay
    (sampleTags ["2026.10.05", "2026.10.05.3"] (by decide)) (by decide)
  have hlast : sampleDay.Last (sampleTags ["2026.10.05", "2026.10.05.3"] (by decide)).taken
      (fun _ ↦ false) 2 := by
    refine ⟨by decide, by unfold Day.Passes; decide, fun i hi hlt ↦ ?_⟩
    obtain rfl : i = 1 := by omega
    unfold Day.Passes
    decide
  obtain rfl := Day.eq_of_pick hlast hpick
  have hgap := Day.gapless_of_above (hlast.free hacc.new) hacc.above
  obtain ⟨-, hbelow⟩ := hgap ['3'] (by decide) (by decide)
  exact absurd (hbelow 2 le_rfl (by decide)) (by decide)

end OpenwrtFeed
