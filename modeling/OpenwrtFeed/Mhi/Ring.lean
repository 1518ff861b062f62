import Mathlib.Algebra.Ring.Nat
import OpenwrtFeed.Lib.Circular

/-!
# Rings

The rings of `mhi_main.c`, which the host and the modem share: an array of elements of one size, a
read pointer and a write pointer.  There is one for each channel (`tre_ring`), with another one that
only the host sees (`buf_ring`), one for each event ring and one for commands.

The functions compute with addresses, and each of them repeats the turn from the end of the array to
its beginning in its own way.  `MhiRing.At` connects the addresses with counters of the elements
that were ever added and deleted, and there is one lemma for each function.
-/

set_option autoImplicit false

namespace OpenwrtFeed.Mhi

/-- `struct mhi_ring`, with the value that `ctxt_wp` points to. -/
structure MhiRing where
  iommuBase : Nat
  ctxtWp : Nat
  base : Nat
  rp : Nat
  wp : Nat
  elSize : Nat
  len : Nat
  elements : Nat
  deriving DecidableEq, Repr

namespace MhiRing

/-- `mhi_add_ring_element` -/
def mhiAddRingElement (ring : MhiRing) : MhiRing :=
  let wp := ring.wp + ring.elSize
  { ring with wp := if ring.base + ring.len ≤ wp then ring.base else wp }

/-- `mhi_del_ring_element` -/
def mhiDelRingElement (ring : MhiRing) : MhiRing :=
  let rp := ring.rp + ring.elSize
  { ring with rp := if ring.base + ring.len ≤ rp then ring.base else rp }

/-- `get_nr_avail_ring_elements` -/
def getNrAvailRingElements (ring : MhiRing) : Int :=
  if ring.wp < ring.rp then
    ((ring.rp - ring.wp) / ring.elSize : Nat) - 1
  else
    ((ring.rp - ring.base) / ring.elSize : Nat) +
      (((ring.base + ring.len - ring.wp) / ring.elSize : Nat) - 1)

/-- `get_used_ring_elements`, for elements of the size `elSize` -/
def getUsedRingElements (elSize rp wp elNum : Nat) : Nat :=
  if rp ≤ wp then (wp - rp) / elSize else elNum - (rp - wp) / elSize

/-- `mhi_to_virtual` -/
def mhiToVirtual (ring : MhiRing) (addr : Nat) : Nat :=
  (addr + (2 ^ 64 - ring.iommuBase) + ring.base) % 2 ^ 64

/-- `mhi_to_physical` -/
def mhiToPhysical (ring : MhiRing) (addr : Nat) : Nat :=
  (addr + (2 ^ 64 - ring.base) + ring.iommuBase) % 2 ^ 64

/-- `mhi_recycle_ev_ring_element` -/
def mhiRecycleEvRingElement (ring : MhiRing) : MhiRing :=
  let ring := ring.mhiAddRingElement
  let ring := { ring with ctxtWp := ring.iommuBase + (ring.wp - ring.base) }
  ring.mhiDelRingElement

/-- `mhi_is_ring_full` -/
def mhiIsRingFull (ring : MhiRing) : Bool :=
  let tmp := ring.wp + ring.elSize
  (if ring.base + ring.len ≤ tmp then ring.base else tmp) == ring.rp

/-- What `mhi_ring_chan_db` and `mhi_ring_cmd_db` leave in the context that the modem reads. -/
def ringDb (ring : MhiRing) : MhiRing :=
  { ring with ctxtWp := ring.iommuBase + (ring.wp - ring.base) }

/-! ## Counters -/

/-- The address of the `k`-th element that is ever added. -/
def slot (ring : MhiRing) (k : Nat) : Nat := ring.base + ring.elSize * (k % ring.elements)

/-- The same address, as the modem sees it. -/
def phys (ring : MhiRing) (k : Nat) : Nat := ring.iommuBase + ring.elSize * (k % ring.elements)

/-- The size and the place of a ring, as it is set up. -/
structure Lies (ring : MhiRing) : Prop where
  elSize_pos : 0 < ring.elSize
  elements_pos : 0 < ring.elements
  len_eq : ring.len = ring.elSize * ring.elements
  base_lt : ring.base + ring.len < 2 ^ 64
  iommu_lt : ring.iommuBase + ring.len < 2 ^ 64

/-- The pointers of a ring after `r` deletions and `w` additions. -/
structure At (ring : MhiRing) (r w : Nat) : Prop extends Lies ring where
  rp_eq : ring.rp = ring.slot r
  wp_eq : ring.wp = ring.slot w

variable {ring : MhiRing} {r w k : Nat}

/-- An element lies between the ends of the array. -/
theorem Lies.offset_lt (h : ring.Lies) (k : Nat) :
    ring.elSize * (k % ring.elements) + ring.elSize ≤ ring.len := by
  have hk := Nat.mod_lt k h.elements_pos
  rw [h.len_eq, ← Nat.mul_succ]
  exact Nat.mul_le_mul_left _ hk

/-- The turn at the end of the array. -/
theorem Lies.slot_succ (h : ring.Lies) (k : Nat) :
    (if ring.base + ring.len ≤ ring.slot k + ring.elSize then ring.base
      else ring.slot k + ring.elSize) = ring.slot (k + 1) := by
  have hlt := Nat.mod_lt k h.elements_pos
  have hnext := Circular.next_mod h.elements_pos k
  have hstep : ring.slot k + ring.elSize = ring.base + ring.elSize * (k % ring.elements + 1) := by
    rw [slot, Nat.mul_succ]
    omega
  have hslot : ring.slot (k + 1) =
      ring.base + ring.elSize * Circular.next ring.elements (k % ring.elements) := by
    rw [hnext, slot]
  rw [hslot, Circular.next, hstep, h.len_eq]
  by_cases hlast : ring.elements ≤ k % ring.elements + 1
  · have heq : k % ring.elements + 1 = ring.elements := by omega
    rw [if_pos hlast, heq, if_pos (Nat.le_refl _), Nat.mul_zero, Nat.add_zero]
  · have hmul : ring.elSize * (k % ring.elements + 1) < ring.elSize * ring.elements :=
      Nat.mul_lt_mul_of_pos_left (by omega) h.elSize_pos
    rw [if_neg hlast, if_neg (by omega)]

/-- Different places have different addresses. -/
theorem Lies.slot_eq_iff (h : ring.Lies) {i j : Nat} :
    ring.slot i = ring.slot j ↔ i % ring.elements = j % ring.elements := by
  rw [slot, slot]
  constructor
  · intro heq
    exact Nat.eq_of_mul_eq_mul_left h.elSize_pos (by omega)
  · intro heq
    rw [heq]

theorem Lies.slot_eq (h : ring.Lies) {i j : Nat} (hij : i ≤ j) (hlt : j < i + ring.elements) :
    ring.slot i = ring.slot j ↔ i = j :=
  ⟨fun heq ↦ Circular.eq_of_mod_eq hij hlt (h.slot_eq_iff.mp heq), fun heq ↦ by rw [heq]⟩

/-- The two views of an address. -/
theorem Lies.toVirtual_phys (h : ring.Lies) (k : Nat) :
    ring.mhiToVirtual (ring.phys k) = ring.slot k := by
  have hoff := h.offset_lt k
  have hbase := h.base_lt
  have hiommu := h.iommu_lt
  have hsum : ring.phys k + (2 ^ 64 - ring.iommuBase) + ring.base = ring.slot k + 2 ^ 64 := by
    rw [phys, slot]
    omega
  rw [mhiToVirtual, hsum, Nat.add_mod_right]
  refine Nat.mod_eq_of_lt ?_
  rw [slot]
  omega

theorem Lies.toPhysical_slot (h : ring.Lies) (k : Nat) :
    ring.mhiToPhysical (ring.slot k) = ring.phys k := by
  have hoff := h.offset_lt k
  have hbase := h.base_lt
  have hiommu := h.iommu_lt
  have hsum : ring.slot k + (2 ^ 64 - ring.base) + ring.iommuBase = ring.phys k + 2 ^ 64 := by
    rw [phys, slot]
    omega
  rw [mhiToPhysical, hsum, Nat.add_mod_right]
  refine Nat.mod_eq_of_lt ?_
  rw [phys]
  omega

/-! ## The functions -/

theorem At.add (h : ring.At r w) : ring.mhiAddRingElement.At r (w + 1) where
  toLies := ⟨h.elSize_pos, h.elements_pos, h.len_eq, h.base_lt, h.iommu_lt⟩
  rp_eq := h.rp_eq
  wp_eq := by
    show (if ring.base + ring.len ≤ ring.wp + ring.elSize then ring.base
      else ring.wp + ring.elSize) = ring.slot (w + 1)
    rw [h.wp_eq]
    exact h.slot_succ w

theorem At.del (h : ring.At r w) : ring.mhiDelRingElement.At (r + 1) w where
  toLies := ⟨h.elSize_pos, h.elements_pos, h.len_eq, h.base_lt, h.iommu_lt⟩
  rp_eq := by
    show (if ring.base + ring.len ≤ ring.rp + ring.elSize then ring.base
      else ring.rp + ring.elSize) = ring.slot (r + 1)
    rw [h.rp_eq]
    exact h.slot_succ r
  wp_eq := h.wp_eq

theorem At.ringDb (h : ring.At r w) : ring.ringDb.At r w where
  toLies := ⟨h.elSize_pos, h.elements_pos, h.len_eq, h.base_lt, h.iommu_lt⟩
  rp_eq := h.rp_eq
  wp_eq := h.wp_eq

/-- The modem is told the place of the next element. -/
theorem At.ctxtWp_ringDb (h : ring.At r w) : ring.ringDb.ctxtWp = ring.phys w := by
  show ring.iommuBase + (ring.wp - ring.base) = ring.phys w
  rw [h.wp_eq, slot, phys, Nat.add_sub_cancel_left]

theorem At.recycle (h : ring.At r w) : ring.mhiRecycleEvRingElement.At (r + 1) (w + 1) :=
  h.add.ringDb.del

/-- The two pointers are equal if and only if the ring is empty. -/
theorem At.rp_eq_wp_iff (h : ring.At r w) (hle : r ≤ w) (hlt : w < r + ring.elements) :
    ring.rp = ring.wp ↔ r = w := by
  rw [h.rp_eq, h.wp_eq]
  exact h.slot_eq hle hlt

/-- A ring is full when all places but one are in use. -/
theorem At.full_iff (h : ring.At r w) (hle : r ≤ w) (hlt : w < r + ring.elements) :
    ring.mhiIsRingFull = true ↔ w + 1 = r + ring.elements := by
  have hpos := h.elements_pos
  have htmp : (if ring.base + ring.len ≤ ring.wp + ring.elSize then ring.base
      else ring.wp + ring.elSize) = ring.slot (w + 1) := by
    rw [h.wp_eq]
    exact h.slot_succ w
  have hturn : ring.slot r = ring.slot (r + ring.elements) := by
    rw [slot, slot, Nat.add_mod_right]
  rw [mhiIsRingFull, beq_iff_eq, htmp, h.rp_eq, hturn]
  rcases Nat.lt_or_ge (w + 1) (r + ring.elements) with hlt' | hge
  · exact h.slot_eq (by omega) (by omega)
  · have heq : w + 1 = r + ring.elements := by omega
    rw [heq]
    simp

/-- How many elements can still be added. -/
theorem At.avail (h : ring.At r w) (hle : r ≤ w) (hlt : w < r + ring.elements) :
    ring.getNrAvailRingElements = ((r + ring.elements - 1 - w : Nat) : Int) := by
  have hdiv : ∀ x, ring.elSize * x / ring.elSize = x := fun x ↦
    Nat.mul_div_cancel_left x h.elSize_pos
  have hr := Nat.mod_lt r h.elements_pos
  have hw := Nat.mod_lt w h.elements_pos
  have hlt_iff : ring.wp < ring.rp ↔ w % ring.elements < r % ring.elements := by
    rw [h.wp_eq, h.rp_eq, slot, slot, Nat.add_lt_add_iff_left, Nat.mul_lt_mul_left h.elSize_pos]
  rw [getNrAvailRingElements]
  rcases Circular.mod_cases hle hlt with ⟨hmod, hw'⟩ | ⟨hmod, hw'⟩
  · have hback : ring.rp - ring.base = ring.elSize * (r % ring.elements) := by
      rw [h.rp_eq, slot]
      omega
    have hfront : ring.base + ring.len - ring.wp =
        ring.elSize * (ring.elements - w % ring.elements) := by
      rw [h.wp_eq, slot, h.len_eq, Nat.mul_sub]
      omega
    rw [if_neg (by rw [hlt_iff]; omega), hback, hfront, hdiv, hdiv]
    omega
  · have hgap : ring.rp - ring.wp = ring.elSize * (r % ring.elements - w % ring.elements) := by
      rw [h.rp_eq, h.wp_eq, slot, slot, Nat.mul_sub]
      omega
    rw [if_pos (hlt_iff.mpr hmod), hgap, hdiv]
    omega

/-- How many elements lie between two addresses of a ring. -/
theorem Lies.used (h : ring.Lies) (hle : r ≤ w) (hlt : w < r + ring.elements) :
    getUsedRingElements ring.elSize (ring.slot r) (ring.slot w) ring.elements = w - r := by
  have hdiv : ∀ x, ring.elSize * x / ring.elSize = x := fun x ↦
    Nat.mul_div_cancel_left x h.elSize_pos
  have hle_iff : ring.slot r ≤ ring.slot w ↔ r % ring.elements ≤ w % ring.elements := by
    rw [slot, slot, Nat.add_le_add_iff_left, Nat.mul_le_mul_left_iff h.elSize_pos]
  have hsub : ∀ i j : Nat, ring.slot i - ring.slot j =
      ring.elSize * (i % ring.elements - j % ring.elements) := by
    intro i j
    rw [slot, slot, Nat.mul_sub, Nat.add_sub_add_left]
  have hdist := Circular.dist_mod hle hlt
  rw [getUsedRingElements, hsub, hsub, hdiv, hdiv]
  simp only [hle_iff]
  exact hdist

theorem Lies.used_phys (h : ring.Lies) (hle : r ≤ w) (hlt : w < r + ring.elements) :
    getUsedRingElements ring.elSize (ring.phys r) (ring.phys w) ring.elements = w - r :=
  -- the modem sees a ring of the same kind, in another place
  @Lies.used { ring with base := ring.iommuBase } r w
    ⟨h.elSize_pos, h.elements_pos, h.len_eq, h.iommu_lt, h.iommu_lt⟩ hle hlt

end MhiRing

end OpenwrtFeed.Mhi
