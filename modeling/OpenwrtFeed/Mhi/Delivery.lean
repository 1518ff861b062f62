import OpenwrtFeed.Mhi.Decode
import OpenwrtFeed.Mhi.Ntb

/-!
# What becomes of the buffers of the receive handlers

Both receive handlers copy each packet into a buffer of its own, put it on a chain, and pass the
chain to the network stack when they are done, whatever the reason.  So a malformed frame costs what
is behind it but not what is before it, provided that every buffer gets from where it is allocated
to the chain.

In the QMAP handler there is nothing in between (`qmi_delivers`).  The MBIM handler looks at the
protocol after it has asked for a buffer, and a datagram of another protocol makes it leave with
that buffer (`mbim_delivers_iff`).
-/

set_option autoImplicit false

namespace OpenwrtFeed.Mhi

variable {host : Host} {alloc : Nat → Bool}

/-! ## The buffers of the QMAP handler -/

/-- The request for a packet buffer, if any, that an iteration makes and that succeeds. -/
def rxGranted (host : Host) (alloc : Nat → Bool) (s : RxState) : Option Nat :=
  match front host s.dev s.skbIn with
  | .data _ _ => if alloc s.allocs then some s.allocs else none
  | _ => none

/-- All such requests of a run. -/
def rxGrants (host : Host) (alloc : Nat → Bool) (fuel : Nat) (dev : MhiNetdev) (skb : SkBuff) :
    List Nat :=
  (Loop.trace rxCond (rxBody host alloc) fuel { dev, skbIn := skb }).flatMap
    fun s ↦ (rxGranted host alloc s).toList

/-- The buffer that an iteration puts on the chain is the one it was granted. -/
theorem rxBuffer_request (s : RxState) :
    (rxBuffer host alloc s).toList.map Buffer.request = (rxGranted host alloc s).toList := by
  rw [rxBuffer, rxGranted, rxPacket]
  rcases front host s.dev s.skbIn with _ | _ | _ | _ | _ | _ | ⟨c, protocol⟩
  case data =>
    dsimp only
    split <;> rfl
  all_goals rfl

theorem rxCommand_allocs (host : Host) (alloc : Nat → Bool) (s : RxState) :
    s.allocs ≤ (rxCommand host alloc s).allocs := by
  rw [rxCommand]
  split
  · exact le_rfl
  · exact Nat.le_succ _

/-- An iteration makes its requests after those before it. -/
theorem rxBody_allocs {s s' : RxState} (h : rxBody host alloc s = .next s') :
    s.allocs ≤ s'.allocs ∧ ∀ k ∈ rxGranted host alloc s, k = s.allocs ∧ k < s'.allocs := by
  have hcommand := rxCommand_allocs host alloc s
  rw [rxBody_eq] at h
  rw [rxGranted]
  revert h
  rcases front host s.dev s.skbIn with _ | _ | _ | _ | _ | _ | ⟨c, protocol⟩ <;> intro h <;>
    dsimp only at h ⊢
  case free =>
    obtain rfl := Loop.Exit.next.inj h
    exact ⟨le_rfl, fun k hk ↦ absurd hk (by simp)⟩
  case command =>
    obtain rfl := Loop.Exit.next.inj h
    exact ⟨hcommand, fun k hk ↦ absurd hk (by simp)⟩
  case data =>
    split at h
    · rename_i halloc
      obtain rfl := Loop.Exit.next.inj h
      rw [if_pos halloc]
      refine ⟨Nat.le_succ _, fun k hk ↦ ?_⟩
      rw [← Option.some.inj hk]
      exact ⟨rfl, Nat.lt_succ_self _⟩
    · exact absurd h (by simp)
  all_goals exact absurd h (by simp)

/-- So the requests of a run come after those before it, in order. -/
theorem rxGranted_trace (fuel : Nat) (s : RxState) :
    ((Loop.trace rxCond (rxBody host alloc) fuel s).flatMap
        fun s ↦ (rxGranted host alloc s).toList).Pairwise (· < ·) ∧
      ∀ k ∈ (Loop.trace rxCond (rxBody host alloc) fuel s).flatMap
        fun s ↦ (rxGranted host alloc s).toList, s.allocs ≤ k := by
  induction fuel generalizing s with
  | zero => exact ⟨.nil, fun k hk ↦ absurd hk (by simp [Loop.trace])⟩
  | succ fuel ih =>
    have hself : ∀ k ∈ rxGranted host alloc s, k = s.allocs := by
      intro k hk
      rw [rxGranted] at hk
      split at hk
      · split at hk
        · exact (Option.some.inj hk).symm
        · exact absurd hk (by simp)
      · exact absurd hk (by simp)
    have hone : (rxGranted host alloc s).toList.Pairwise (· < ·) := by
      rcases rxGranted host alloc s with _ | k
      · exact .nil
      · exact List.pairwise_singleton _ _
    rw [Loop.trace]
    split
    · rw [List.flatMap_cons]
      split
      · rename_i s' hbody
        obtain ⟨hle, hgranted⟩ := rxBody_allocs hbody
        obtain ⟨hpair, hge⟩ := ih s'
        refine ⟨List.pairwise_append.2 ⟨hone, hpair, fun a ha b hb ↦ ?_⟩, fun k hk ↦ ?_⟩
        · exact (hgranted a (Option.mem_toList.1 ha)).2.trans_le (hge b hb)
        · rcases List.mem_append.1 hk with hk | hk
          · exact (hself k (Option.mem_toList.1 hk)).ge
          · exact hle.trans (hge k hk)
      · rw [List.flatMap_nil, List.append_nil]
        exact ⟨hone, fun k hk ↦ (hself k (Option.mem_toList.1 hk)).ge⟩
    · exact ⟨.nil, fun k hk ↦ absurd hk (by simp)⟩

/-- **The QMAP handler delivers every buffer**, however it comes to its end and whichever requests
succeed: the chain holds the buffers that were granted, once each and in the order of the
requests. -/
theorem qmi_delivers {fuel : Nat} {dev : MhiNetdev} {skb : SkBuff} {r : RxState}
    (h : rmnetQmiRxHandler host alloc fuel dev skb = some r) :
    r.skbChain.map Buffer.request = rxGrants host alloc fuel dev skb ∧
      (rxGrants host alloc fuel dev skb).Pairwise (· < ·) := by
  have hchain := Loop.run_accumulates RxState.skbChain (fun s ↦ (rxBuffer host alloc s).toList)
    (fun _ _ _ hbody ↦ rxBody_skbChain (.inl hbody))
    (fun _ _ _ hbody ↦ rxBody_skbChain (.inr hbody)) h
  refine ⟨?_, (rxGranted_trace fuel _).1⟩
  rw [hchain, List.nil_append, List.map_flatMap, rxGrants]
  simp only [rxBuffer_request]

/-! ## Both handlers -/

/-- **When every buffer is delivered.**  Whatever the two handlers receive, whichever requests for
buffers succeed and however the loop ends: the packets delivered are in exactly the buffers that
were granted, once each and in order, if and only if no datagram that the MBIM handler comes to is
of another protocol than the two it knows. -/
theorem handlers_deliver_iff (host : Host) (dev : MhiNetdev) (aggregate : SkBuff)
    (dev' : MbimNetdev)
    (ntb : SkBuff) :
    ((∀ alloc fuel r, rmnetQmiRxHandler host alloc fuel dev aggregate = some r →
        r.skbChain.map Buffer.request = rxGrants host alloc fuel dev aggregate ∧
          (rxGrants host alloc fuel dev aggregate).Pairwise (· < ·)) ∧
      ∀ alloc fuel r, rmnetMbimRxHandler host alloc fuel dev' ntb = some r → r.oops = false →
        r.delivered.map Buffer.request = r.granted ∧ r.granted.Pairwise (· < ·)) ↔
    ∀ off, NdpStart host dev' ntb off → 0 < off → NdpClean dev' ntb off := by
  rw [← mbim_delivers_iff]
  exact ⟨And.right, fun h ↦ ⟨fun _ _ _ hr ↦ qmi_delivers hr, h⟩⟩

/-- A block with one datagram, which is no packet of either protocol. -/
def foreignBlock : SkBuff where
  data := [0x4e, 0x43, 0x4d, 0x48, 0x0c, 0, 0, 0, 0x1d, 0, 0x0c, 0,
    0x49, 0x50, 0x53, 0, 0x10, 0, 0, 0, 0x1c, 0, 1, 0, 0, 0, 0, 0, 0x00]

theorem handlers_lose_foreign_datagram :
    ¬ ∀ alloc fuel r, rmnetMbimRxHandler .little alloc fuel oneSession foreignBlock = some r →
      r.oops = false → r.delivered.map Buffer.request = r.granted ∧ r.granted.Pairwise (· < ·) := by
  intro h
  have hrun : ∃ r, rmnetMbimRxHandler .little (fun _ ↦ true) 1 oneSession foreignBlock = some r ∧
      r.oops = false ∧ r.delivered = [] ∧ r.granted = [0] :=
    ⟨_, rfl, by decide, by decide, by decide⟩
  obtain ⟨r, hr, hoops, hnone, hgranted⟩ := hrun
  have hall := (h _ _ _ hr hoops).1
  rw [hnone, hgranted] at hall
  exact absurd hall (by decide)

end OpenwrtFeed.Mhi
