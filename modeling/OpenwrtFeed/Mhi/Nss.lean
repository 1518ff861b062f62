import OpenwrtFeed.Lib.Atomic
import OpenwrtFeed.Lib.Custody
import OpenwrtFeed.Lib.HashTable
import OpenwrtFeed.Lib.Loop
import OpenwrtFeed.Mhi.Receive

/-!
# Packets between the driver, NSS and the network stack

On some boards a network processor (NSS) forwards packets.  A child interface of the MHI driver then
has `qca_nss_rx_handler` (`mhi_netdev_quectel.c`) as its receive handler, which gives every packet
to `rmnet_nss_tx` (`rmnet_nss.c`).  NSS takes the packet, or is busy and is asked again, or refuses
it; and a packet it took may come back as an exception through `rmnet_nss_receive`.  A packet that
comes back goes through `netif_receive_skb` and so meets the receive handler once more, which tells
it from a new one by a mark in the first byte of its control block.

Two exits look dangerous.  `rmnet_nss_tx` returns an error and keeps the packet when there is no
context for the device, while its caller ignores the result and reports the packet as consumed; and
`rmnet_nss_receive` called out of `rmnet_nss_tx` calls the handler that called `rmnet_nss_tx`.  The
first is never taken because a child has a receive handler only while it has a context
(`NssWorld.Ready`), which is a matter of the order of the calls in `rmnet_vnd_register_device` and
`rmnet_vnd_unregister_device`; the second ends because of the mark.

## What is here

* The functions of both files, with what they do to the packet as a list of `Action`s.  The two
  modules call each other through the kernel, so `netifReceiveSkb` has fuel;
  `netifReceiveSkb_returns` says that there always is enough.
* `NssStep`: children coming and going, one call at a time, packets arriving and exceptions.
* `netifReceiveSkb_settled` and `rmnetNssReceive_settled`: what is done to one packet ends with
  exactly one of the three things that can happen to it.
* `nss_ownership`: in every reachable state every packet is accounted for.

The kernel waits for running receive handlers before `netdev_rx_handler_unregister` returns, so the
processing of one packet is a single step here.
-/

set_option autoImplicit false

namespace OpenwrtFeed.Mhi

open Relation

/-! ## Packets and what is done to them -/

/-- `ETH_P_IP` and `ETH_P_IPV6`. -/
def Protocol.etherType : Protocol → Nat
  | .ip => 0x0800
  | .ipv6 => 0x86dd

/-- `ETH_P_802_3`. -/
def ethP8023 : Nat := 0x0001

/-- A socket buffer on its way to the network stack: a linear part and fragments. -/
structure Skb where
  dev : Nat
  head : List UInt8
  frags : List (List UInt8) := []
  protocol : Nat := 0
  /-- Whether `pkt_type` is `PACKET_LOOPBACK`. -/
  loopback : Bool := false
  /-- The first byte of the control block, `skb->cb[0]`. -/
  cb0 : UInt8 := 0
  deriving DecidableEq, Repr

/-- The field `skb->len`. -/
def Skb.len (skb : Skb) : Nat := skb.head.length + skb.frags.flatten.length

/-- `skb_is_nonlinear`. -/
def Skb.isNonlinear (skb : Skb) : Bool := 0 < skb.frags.flatten.length

/-- What `skb_linearize` makes of a packet when it gets the memory for it. -/
def Skb.linearized (skb : Skb) : Skb :=
  { skb with head := skb.head ++ skb.frags.flatten, frags := [] }

/-- Something done to a packet. -/
inductive Action where
  /-- The packet comes from the modem or back from NSS. -/
  | given
  /-- A call of `rmnet_nss_tx`. -/
  | enterTx
  | toStack (skb : Skb)
  | toNss (skb : Skb)
  | freed
  deriving DecidableEq, Repr

/-- Where a packet is. -/
inductive Place where
  | fresh
  /-- In the hands of one of the functions below. -/
  | host
  | stack
  | nss
  | freed
  deriving DecidableEq, Repr

/-- Only who holds a packet may pass it on or free it. -/
def Place.next : Place → Action → Option Place
  | .fresh, .given => some .host
  | .nss, .given => some .host
  | .host, .enterTx => some .host
  | .host, .toStack _ => some .stack
  | .host, .toNss _ => some .nss
  | .host, .freed => some .freed
  | _, _ => none

/-! ## Contexts -/

/-- A `struct rmnet_nss_ctx`. -/
structure RmnetNssCtx where
  rmnetDev : Nat
  deriving DecidableEq, Repr

/-- The contexts, `rmnet_nss_ctx_hashtable`. -/
abbrev CtxTable : Type := HashTable RmnetNssCtx

section
variable (hash : Nat → Nat)

/-- `rmnet_nss_find_ctx`. -/
def rmnetNssFindCtx (table : CtxTable) (dev : Nat) : Option RmnetNssCtx :=
  HashTable.find hash RmnetNssCtx.rmnetDev table dev

/-- `rmnet_nss_create_vnd`: the memory or the NSS side of the context may not be there, and then
nothing is added. -/
def rmnetNssCreateVnd (kzalloc rxCreate : Bool) (table : CtxTable) (dev : Nat) : CtxTable × Int :=
  if !kzalloc then (table, -12)
  else if !rxCreate then (table, -1)
  else (HashTable.add hash RmnetNssCtx.rmnetDev table ⟨dev⟩, 0)

/-- `rmnet_nss_free_vnd`. -/
def rmnetNssFreeVnd (table : CtxTable) (dev : Nat) : CtxTable :=
  match rmnetNssFindCtx hash table dev with
  | some _ => HashTable.del hash RmnetNssCtx.rmnetDev table dev
  | none => table

end

/-! ## `rmnet_nss.c` -/

/-- The IP version in the first byte of a header. -/
def ipVersion (b : UInt8) : Nat := b.toNat / 16

/-- `IPPROTO_TCP`. -/
def ipprotoTcp : Nat := 6

/-- `IPPROTO_UDP`. -/
def ipprotoUdp : Nat := 17

/-- The transport protocol that an IP header names, in the field of its version. -/
def transportOf (bytes : List UInt8) : Option Nat :=
  let version := ipVersion (bytes.getD 0 0)
  if version = 4 then some (bytes.getD 9 0).toNat
  else if version = 6 then some (bytes.getD 6 0).toNat
  else none

/-- `rmnet_nss_handle_non_zero_headlen`; `none` is an error. -/
def rmnetNssHandleNonZeroHeadlen (linearize : Bool) (skb : Skb) : Option Skb :=
  if skb.head.length < 20 then none
  else match transportOf skb.head with
    | none => none
    | some transport =>
      if transport ≠ ipprotoTcp ∧ transport ≠ ipprotoUdp then
        if linearize then some skb.linearized else none
      else if transport = ipprotoTcp ∧ skb.head.length < 40 ∨
          transport = ipprotoUdp ∧ skb.head.length < 28 then none
      else some skb

/-- `rmnet_nss_adjust_header`: moves the headers of a packet that is all in one fragment to its
linear part; `none` is an error. -/
def rmnetNssAdjustHeader (linearize : Bool) (skb : Skb) : Option Skb :=
  match skb.frags with
  | [frag] =>
    if skb.head.length ≠ 0 then rmnetNssHandleNonZeroHeadlen linearize skb
    else match transportOf frag with
      | none => none
      | some transport =>
        let ipBytes := if ipVersion (frag.getD 0 0) = 4 then (frag.getD 0 0).toNat % 16 * 4 else 40
        if transport ≠ ipprotoTcp ∧ transport ≠ ipprotoUdp then
          if linearize then some skb.linearized else none
        else
          let bytes := ipBytes +
            (if transport = ipprotoTcp then (frag.getD (ipBytes + 12) 0).toNat / 16 * 4 else 8)
          if frag.length < bytes then none
          else some { skb with head := frag.take bytes ++ skb.head, frags := [frag.drop bytes] }
  | _ => none

/-- What `nss_rmnet_rx_tx_buf` answers. -/
inductive NssTxStatus where
  | success
  | failureQueue
  | failureNotEnabled
  /-- One of the other failures. -/
  | failure (code : Nat)
  deriving DecidableEq, Repr

/-- What the surroundings contribute to the handling of one packet: whether there is memory to
linearize it, and what NSS answers to the attempts to hand it over.  NSS is not busy forever. -/
structure Surroundings where
  linearize : Bool
  answers : Nat → NssTxStatus
  finite : ∃ n, answers n ≠ .failureQueue

/-- `rmnet_nss_ethhdr_pull`; `none` is an error. -/
def rmnetNssEthhdrPull (skb : Skb) : Option Skb :=
  if skb.protocol = 0 ∨ skb.protocol = ethP8023 then
    if 14 ≤ skb.len then some { skb with head := skb.head.drop 14 } else none
  else none

/-- `rmnet_nss_receive`, with `netif` for `netif_receive_skb`. -/
def rmnetNssReceive (netif : Skb → Option (List Action)) (dev : Nat) :
    Option Skb → Option (List Action)
  | none => some []
  | some skb =>
    match rmnetNssEthhdrPull skb with
    | none => some [.freed]
    | some skb =>
      let skb := { skb with loopback := false, dev }
      match protocolOf (skb.head.getD 0 0) with
      | some protocol => netif { skb with protocol := protocol.etherType, cb0 := 1 }
      | none => some [.freed]

/-- Back to the label `transmit`. -/
def transmitAgain (n : Nat) : Loop.Exit Nat := .next (n + 1)

/-- The loop at the label `transmit`: how many attempts came before the one that decides. -/
def transmit (answers : Nat → NssTxStatus) (fuel : Nat) : Option Nat :=
  Loop.run (fun n ↦ answers n = .failureQueue) transmitAgain fuel 0

section
variable (hash : Nat → Nat) (nssCb : Bool)

/-- `rmnet_nss_tx`: its result, and what it did with the packet. -/
def rmnetNssTx (table : CtxTable) (env : Surroundings) (fuel : Nat)
    (netif : Skb → Option (List Action)) (skb : Skb) : Option (Int × List Action) :=
  let dev := skb.dev
  match (if skb.isNonlinear then rmnetNssAdjustHeader env.linearize skb else some skb) with
  | none => some (1, [.enterTx, .freed])
  | some skb =>
    let version := ipVersion (skb.head.getD 0 0)
    match rmnetNssFindCtx hash table dev with
    | none => some (-22, [.enterTx])
    | some _ =>
      if version ≠ 4 ∧ version ≠ 6 then some (1, [.enterTx, .freed])
      else
        let proto : List UInt8 := if version = 4 then [0x08, 0x00] else [0x86, 0xdd]
        let skb := { skb with
          head := List.replicate 12 0 ++ proto ++ skb.head
          protocol := ethP8023 }
        (transmit env.answers fuel).bind fun n ↦
          match env.answers n with
          | .success => some (0, [.enterTx, .toNss skb])
          | .failureNotEnabled =>
            (rmnetNssReceive netif dev (some skb)).map fun acts ↦ (0, .enterTx :: acts)
          | _ => some (1, [.enterTx, .freed])

/-! ## `mhi_netdev_quectel.c` -/

/-- What a receive handler tells the kernel. -/
inductive RxHandlerResult where
  | consumed
  /-- The kernel goes on with the packet. -/
  | pass (skb : Skb)
  deriving DecidableEq, Repr

/-- `qca_nss_rx_handler`. -/
def qcaNssRxHandler (table : CtxTable) (env : Surroundings) (fuel : Nat)
    (netif : Skb → Option (List Action)) : Option Skb → Option (RxHandlerResult × List Action)
  | none => some (.consumed, [])
  | some skb =>
    if skb.loopback then some (.pass skb, [])
    else if skb.cb0 = 1 then some (.pass { skb with cb0 := 0 }, [])
    else if nssCb then
      (rmnetNssTx hash table env fuel netif skb).map fun r ↦ (.consumed, r.2)
    else some (.pass skb, [])

/-- `netif_receive_skb` as far as it matters here: the packet goes through the receive handler of
its device if there is one, and to the stack if that lets it pass. -/
def netifReceiveSkb (handler : Nat → Bool) (table : CtxTable) (env : Surroundings) :
    Nat → Skb → Option (List Action)
  | 0, _ => none
  | fuel + 1, skb =>
    if handler skb.dev then
      (qcaNssRxHandler hash nssCb table env fuel (netifReceiveSkb handler table env fuel)
        (some skb)).map
        fun
        | (.consumed, acts) => acts
        | (.pass skb, acts) => acts ++ [.toStack skb]
    else some [.toStack skb]

end

/-! ## One packet -/

/-- An action that ends the handling of a packet. -/
def Action.isEnd : Action → Bool
  | .toStack _ | .toNss _ | .freed => true
  | .given | .enterTx => false

/-- What is done to a packet that ends properly: one end, with at most one call of `rmnet_nss_tx`
before it. -/
inductive Settled : List Action → Prop
  | direct (e : Action) (he : e.isEnd = true) : Settled [e]
  | viaTx (e : Action) (he : e.isEnd = true) : Settled [.enterTx, e]

theorem Settled.count_le {acts : List Action} (h : Settled acts) : acts.count .enterTx ≤ 1 := by
  rcases h with ⟨e, he⟩ | ⟨e, he⟩ <;> cases e <;> simp_all [Action.isEnd]

theorem Settled.countP_isEnd {acts : List Action} (h : Settled acts) :
    acts.countP Action.isEnd = 1 := by
  rcases h with ⟨e, he⟩ | ⟨e, he⟩
  · simp [he]
  · rw [List.countP_cons_of_neg (by decide), List.countP_cons_of_pos he, List.countP_nil]

variable {hash : Nat → Nat} {nssCb : Bool} {handler : Nat → Bool} {table : CtxTable}
  {env : Surroundings}

/-- **A marked packet passes the receive handler**, whatever the state of its device. -/
theorem netifReceiveSkb_marked (fuel : Nat) {skb : Skb} (h : skb.cb0 = 1) :
    ∃ s, netifReceiveSkb hash nssCb handler table env (fuel + 1) skb = some [.toStack s] := by
  rw [netifReceiveSkb]
  split
  · rw [qcaNssRxHandler]
    split
    · exact ⟨skb, rfl⟩
    · exact ⟨{ skb with cb0 := 0 }, rfl⟩
  · exact ⟨skb, rfl⟩

/-- What comes back from NSS is freed, or is marked and goes to the kernel. -/
theorem rmnetNssReceive_cases (netif : Skb → Option (List Action)) (dev : Nat) (skb : Skb) :
    rmnetNssReceive netif dev (some skb) = some [.freed] ∨
      ∃ s, s.cb0 = 1 ∧ rmnetNssReceive netif dev (some skb) = netif s := by
  rw [rmnetNssReceive]
  split
  · exact .inl rfl
  · dsimp only
    split
    · exact .inr ⟨_, rfl, rfl⟩
    · exact .inl rfl

theorem rmnetNssReceive_returns (fuel : Nat) (dev : Nat) (skb : Skb) :
    ∃ acts, rmnetNssReceive (netifReceiveSkb hash nssCb handler table env (fuel + 1))
      dev (some skb) =
      some acts := by
  rcases rmnetNssReceive_cases
    (netifReceiveSkb hash nssCb handler table env (fuel + 1)) dev skb with
    h | ⟨s, hs, h⟩
  · exact ⟨_, h⟩
  · obtain ⟨s', hs'⟩ := netifReceiveSkb_marked fuel hs
    exact ⟨_, h.trans hs'⟩

/-- A packet that comes back from NSS is settled without another call of `rmnet_nss_tx`. -/
theorem rmnetNssReceive_settled {fuel dev : Nat} {skb : Skb} {acts : List Action}
    (h : rmnetNssReceive (netifReceiveSkb hash nssCb handler table env fuel) dev (some skb) =
      some acts) : ∃ e, e.isEnd = true ∧ acts = [e] := by
  rcases rmnetNssReceive_cases (netifReceiveSkb hash nssCb handler table env fuel) dev skb with
    h' | ⟨s, hs, h'⟩
  · exact ⟨.freed, rfl, Option.some.inj (h.symm.trans h')⟩
  · rw [h'] at h
    rcases fuel with _ | fuel
    · exact absurd h (by simp [netifReceiveSkb])
    · obtain ⟨s', hs'⟩ := netifReceiveSkb_marked fuel hs
      exact ⟨.toStack s', rfl, Option.some.inj (h.symm.trans hs')⟩

/-- The attempts to hand a packet over end. -/
theorem transmit_returns {answers : Nat → NssTxStatus} {n fuel : Nat}
    (h : answers n ≠ .failureQueue) (hle : n ≤ fuel) : ∃ m, transmit answers fuel = some m := by
  have key : ∀ fuel k, answers (k + fuel) ≠ .failureQueue →
      ∃ m, Loop.run (fun n ↦ answers n = .failureQueue) transmitAgain fuel k = some m := by
    intro fuel
    induction fuel with
    | zero =>
      intro k hk
      exact ⟨k, Loop.run_done (by simpa using hk) 0⟩
    | succ fuel ih =>
      intro k hk
      by_cases hb : answers k = .failureQueue
      · have hnext : transmitAgain k = .next (k + 1) := rfl
        rw [Loop.run_next (by simpa using hb) hnext]
        exact ih (k + 1) (by rwa [Nat.add_right_comm, Nat.add_assoc])
      · exact ⟨k, Loop.run_done (by simpa using hb) _⟩
  obtain ⟨m, hm⟩ := key n 0 (by rwa [Nat.zero_add])
  exact ⟨m, Loop.run_mono hm hle⟩

/-- **`rmnet_nss_tx` with a context disposes of the packet**, on each of its exits. -/
theorem rmnetNssTx_settled {fuel k : Nat} {skb : Skb} {r : Int × List Action}
    (hctx : (rmnetNssFindCtx hash table skb.dev).isSome = true)
    (h : rmnetNssTx hash table env fuel (netifReceiveSkb hash nssCb handler table env k) skb =
      some r) :
    Settled r.2 := by
  obtain ⟨ctx, hctx⟩ := Option.isSome_iff_exists.1 hctx
  unfold rmnetNssTx at h
  dsimp only at h
  split at h
  · obtain rfl := Option.some.inj h
    exact .viaTx _ rfl
  · rename_i skb' _
    rw [hctx] at h
    dsimp only at h
    split at h
    · obtain rfl := Option.some.inj h
      exact .viaTx _ rfl
    · obtain ⟨n, -, h⟩ := Option.bind_eq_some_iff.1 h
      split at h
      · obtain rfl := Option.some.inj h
        exact .viaTx _ rfl
      · -- refused: the packet takes the way back, marked
        obtain ⟨acts, hacts, rfl⟩ := Option.map_eq_some_iff.1 h
        obtain ⟨e, he, rfl⟩ := rmnetNssReceive_settled hacts
        exact .viaTx e he
      · obtain rfl := Option.some.inj h
        exact .viaTx _ rfl

/-- The call comes back as soon as NSS stops being busy. -/
theorem rmnetNssTx_returns {n fuel k : Nat} (hn : env.answers n ≠ .failureQueue) (hle : n ≤ fuel)
    (skb : Skb) :
    ∃ r, rmnetNssTx hash table env fuel (netifReceiveSkb hash nssCb handler table env (k + 1)) skb =
      some r := by
  obtain ⟨m, hm⟩ := transmit_returns hn hle
  unfold rmnetNssTx
  dsimp only
  split
  · exact ⟨_, rfl⟩
  · split
    · exact ⟨_, rfl⟩
    · split
      · exact ⟨_, rfl⟩
      · rw [hm, Option.bind_some]
        split
        · exact ⟨_, rfl⟩
        · obtain ⟨acts, hacts⟩ := rmnetNssReceive_returns k skb.dev _
          rw [hacts]
          exact ⟨_, rfl⟩
        · exact ⟨_, rfl⟩

/-- The receive handler ends what it reports as consumed, and leaves alone what it lets pass. -/
theorem qcaNssRxHandler_settled {fuel k : Nat} {skb : Skb} {r : RxHandlerResult}
    {acts : List Action}
    (hctx : (rmnetNssFindCtx hash table skb.dev).isSome = true)
    (h : qcaNssRxHandler hash nssCb table env fuel
      (netifReceiveSkb hash nssCb handler table env k) (some skb) = some (r, acts)) :
    (r = .consumed ∧ Settled acts) ∨ ((∃ s, r = .pass s) ∧ acts = []) := by
  rw [qcaNssRxHandler] at h
  split at h
  · obtain ⟨rfl, rfl⟩ := Prod.mk.inj (Option.some.inj h)
    exact .inr ⟨⟨_, rfl⟩, rfl⟩
  · split at h
    · obtain ⟨rfl, rfl⟩ := Prod.mk.inj (Option.some.inj h)
      exact .inr ⟨⟨_, rfl⟩, rfl⟩
    · split at h
      · obtain ⟨r', hr', heq⟩ := Option.map_eq_some_iff.1 h
        obtain ⟨rfl, rfl⟩ := Prod.mk.inj heq
        exact .inl ⟨rfl, rmnetNssTx_settled hctx hr'⟩
      · obtain ⟨rfl, rfl⟩ := Prod.mk.inj (Option.some.inj h)
        exact .inr ⟨⟨_, rfl⟩, rfl⟩

/-- **A packet that arrives at a child is settled**, if the child has a context whenever it has a
receive handler. -/
theorem netifReceiveSkb_settled {fuel : Nat} {skb : Skb} {acts : List Action}
    (hctx : handler skb.dev = true → (rmnetNssFindCtx hash table skb.dev).isSome = true)
    (h : netifReceiveSkb hash nssCb handler table env fuel skb = some acts) : Settled acts := by
  rcases fuel with _ | fuel
  · exact absurd h (by simp [netifReceiveSkb])
  · rw [netifReceiveSkb] at h
    split at h
    · rename_i hhandler
      obtain ⟨⟨r, acts'⟩, hr, rfl⟩ := Option.map_eq_some_iff.1 h
      rcases qcaNssRxHandler_settled (hctx hhandler) hr with ⟨rfl, hs⟩ | ⟨⟨s, rfl⟩, rfl⟩
      · exact hs
      · exact .direct _ rfl
    · obtain rfl := Option.some.inj h
      exact .direct _ rfl

/-- And its handling comes to an end. -/
theorem netifReceiveSkb_returns (skb : Skb) :
    ∃ fuel acts, netifReceiveSkb hash nssCb handler table env fuel skb = some acts := by
  obtain ⟨n, hn⟩ := env.finite
  refine ⟨n + 2, ?_⟩
  rw [netifReceiveSkb]
  split
  · rw [qcaNssRxHandler]
    split
    · exact ⟨_, rfl⟩
    · split
      · exact ⟨_, rfl⟩
      · split
        · obtain ⟨r, hr⟩ := rmnetNssTx_returns hn (Nat.le_succ n) skb
          rw [hr]
          exact ⟨_, rfl⟩
        · exact ⟨_, rfl⟩
  · exact ⟨_, rfl⟩

/-! ## Children coming and going -/

/-- How far the registration or the removal of a child has come. -/
inductive ChildPhase where
  | gone
  /-- `register_netdev` succeeded. -/
  | registered
  /-- `nss_create` succeeded, the receive handler is not there yet. -/
  | created
  /-- `rmnet_vnd_register_device` is done. -/
  | ready
  /-- `netdev_rx_handler_unregister` returned. -/
  | detached
  /-- `nss_free` returned. -/
  | released
  deriving DecidableEq, Repr

/-- The children of the driver, by the address of their `struct net_device`, the contexts of
`rmnet_nss`, and what happened to which packet. -/
structure NssWorld where
  phase : Nat → ChildPhase
  /-- The field `priv->use_qca_nss`. -/
  useQcaNss : Nat → Bool
  /-- Whether `qca_nss_rx_handler` is the receive handler. -/
  handler : Nat → Bool
  table : CtxTable
  log : List (Nat × Action)

/-- Before the first child. -/
def NssWorld.init : NssWorld where
  phase := fun _ ↦ .gone
  useQcaNss := fun _ ↦ false
  handler := fun _ ↦ false
  table := fun _ ↦ []
  log := []

/-- Where a packet is. -/
def NssWorld.placeOf (w : NssWorld) (p : Nat) : Option Place :=
  Custody.place Place.next .fresh w.log p

/-- The call of `nss_create` in `rmnet_vnd_register_device`, and what follows from its result. -/
def NssWorld.nssCreate (hash : Nat → Nat) (w : NssWorld) (d : Nat) (kzalloc rxCreate : Bool) :
    NssWorld :=
  let (table, rc) := rmnetNssCreateVnd hash kzalloc rxCreate w.table d
  if rc ≠ 0 then { w with table, phase := Function.update w.phase d .ready }
  else { w with
    table
    useQcaNss := Function.update w.useQcaNss d true
    phase := Function.update w.phase d .created }

/-- What may happen next.  The calls that `rmnet_vnd_register_device` and
`rmnet_vnd_unregister_device` make for one child come in the order of the source; anything may
happen between them. -/
inductive NssStep (hash : Nat → Nat) (nssCb : Bool) : NssWorld → NssWorld → Prop
  | registerNetdev (w : NssWorld) (d : Nat) (h : w.phase d = .gone) :
      NssStep hash nssCb w { w with
        phase := Function.update w.phase d .registered
        useQcaNss := Function.update w.useQcaNss d false }
  | nssCreate (w : NssWorld) (d : Nat) (kzalloc rxCreate : Bool) (h : w.phase d = .registered)
      (hcb : nssCb = true) : NssStep hash nssCb w (w.nssCreate hash d kzalloc rxCreate)
  /-- There is no `rmnet_nss`, or the child is in bridge mode. -/
  | withoutNss (w : NssWorld) (d : Nat) (h : w.phase d = .registered) :
      NssStep hash nssCb w { w with phase := Function.update w.phase d .ready }
  /-- The result of `netdev_rx_handler_register` is not looked at. -/
  | rxHandlerRegister (w : NssWorld) (d : Nat) (ok : Bool) (h : w.phase d = .created) :
      NssStep hash nssCb w { w with
        handler := Function.update w.handler d ok
        phase := Function.update w.phase d .ready }
  | rxHandlerUnregister (w : NssWorld) (d : Nat) (h : w.phase d = .ready)
    (huse : w.useQcaNss d = true) :
      NssStep hash nssCb w { w with
        handler := Function.update w.handler d false
        phase := Function.update w.phase d .detached }
  | nssFree (w : NssWorld) (d : Nat) (h : w.phase d = .detached) :
      NssStep hash nssCb w { w with
        table := rmnetNssFreeVnd hash w.table d
        phase := Function.update w.phase d .released }
  | freeNetdev (w : NssWorld) (d : Nat)
      (h : w.phase d = .released ∨ w.phase d = .ready ∧ w.useQcaNss d = false) :
      NssStep hash nssCb w { w with phase := Function.update w.phase d .gone }
  /-- A new packet arrives at a child. -/
  | arrive (w : NssWorld) (p : Nat) (skb : Skb) (env : Surroundings) (fuel : Nat)
    (acts : List Action)
      (hp : w.placeOf p = some .fresh) (hdev : w.phase skb.dev ≠ .gone)
      (h : netifReceiveSkb hash nssCb w.handler w.table env fuel skb = some acts) :
      NssStep hash nssCb w { w with log := w.log ++ Custody.burst p (.given :: acts) }
  /-- NSS gives a packet back, or one of its own, in whatever form. -/
  | exception (w : NssWorld) (p dev : Nat) (skb : Skb) (env : Surroundings) (fuel : Nat)
      (acts : List Action) (hp : w.placeOf p = some .nss ∨ w.placeOf p = some .fresh)
      (hdev : w.phase dev ≠ .gone)
      (h : rmnetNssReceive (netifReceiveSkb hash nssCb w.handler w.table env fuel) dev (some skb) =
        some acts) :
      NssStep hash nssCb w { w with log := w.log ++ Custody.burst p (.given :: acts) }

/-! ## A receive handler only with a context -/

/-- What holds of a child in each phase; `ctx` tells whether there is a context for it. -/
def ChildPhase.Ok (useQcaNss handler ctx : Bool) : ChildPhase → Prop
  | .gone => handler = false
  | .registered => useQcaNss = false ∧ handler = false
  | .created => useQcaNss = true ∧ handler = false ∧ ctx = true
  | .ready => (handler = true → useQcaNss = true) ∧ (useQcaNss = true → ctx = true)
  | .detached => handler = false
  | .released => handler = false

/-- Every child is as its phase says. -/
def NssWorld.Ready (hash : Nat → Nat) (w : NssWorld) : Prop :=
  ∀ d, (w.phase d).Ok (w.useQcaNss d) (w.handler d) (rmnetNssFindCtx hash w.table d).isSome

theorem NssWorld.Ready.ctx {w : NssWorld} (h : w.Ready hash) {d : Nat} (hd : w.handler d = true) :
    (rmnetNssFindCtx hash w.table d).isSome = true := by
  have hok := h d
  cases hphase : w.phase d <;> rw [hphase] at hok <;> simp_all [ChildPhase.Ok]

theorem ready_init : NssWorld.init.Ready hash := fun _ ↦ rfl

/-- The two outcomes of `rmnet_nss_create_vnd`. -/
theorem rmnetNssCreateVnd_cases (hash : Nat → Nat) (kzalloc rxCreate : Bool) (table : CtxTable)
    (d : Nat) :
    (∃ rc, rc ≠ 0 ∧ rmnetNssCreateVnd hash kzalloc rxCreate table d = (table, rc)) ∨
      rmnetNssCreateVnd hash kzalloc rxCreate table d =
        (HashTable.add hash RmnetNssCtx.rmnetDev table ⟨d⟩, 0) := by
  rw [rmnetNssCreateVnd]
  split
  · exact .inl ⟨-12, by decide, rfl⟩
  · split
    · exact .inl ⟨-1, by decide, rfl⟩
    · exact .inr rfl

/-- Freeing the context of one device does nothing to the others. -/
theorem rmnetNssFreeVnd_of_ne {d d' : Nat} (hne : d ≠ d') :
    rmnetNssFindCtx hash (rmnetNssFreeVnd hash table d) d' = rmnetNssFindCtx hash table d' := by
  rw [rmnetNssFreeVnd]
  split
  · exact HashTable.find_del_of_ne table hne
  · rfl

/-- A step for one child leaves the others alone. -/
theorem NssWorld.Ready.of_update {w w' : NssWorld} (hw : w.Ready hash) (d : Nat)
    (hself : (w'.phase d).Ok (w'.useQcaNss d) (w'.handler d)
      (rmnetNssFindCtx hash w'.table d).isSome)
    (hother : ∀ d', d ≠ d' → w'.phase d' = w.phase d' ∧ w'.useQcaNss d' = w.useQcaNss d' ∧
      w'.handler d' = w.handler d' ∧
      rmnetNssFindCtx hash w'.table d' = rmnetNssFindCtx hash w.table d') :
    w'.Ready hash := by
  intro d'
  by_cases hd : d = d'
  · exact hd ▸ hself
  · obtain ⟨hphase, huse, hhandler, hctx⟩ := hother d' hd
    rw [hphase, huse, hhandler, hctx]
    exact hw d'

theorem ready_nssCreate {w : NssWorld} (hw : w.Ready hash) {d : Nat} (h : w.phase d = .registered)
    (kzalloc rxCreate : Bool) : (w.nssCreate hash d kzalloc rxCreate).Ready hash := by
  have hok := hw d
  rw [h] at hok
  obtain ⟨huse, hhandler⟩ := hok
  rw [NssWorld.nssCreate]
  rcases rmnetNssCreateVnd_cases hash kzalloc rxCreate w.table d with ⟨rc, hrc, heq⟩ | heq
  · rw [heq]
    dsimp only
    rw [if_pos hrc]
    refine hw.of_update d ?_ fun d' hne ↦ ?_
    · simp [ChildPhase.Ok, huse, hhandler]
    · simp [Function.update_of_ne (Ne.symm hne)]
  · have hfind : rmnetNssFindCtx hash (HashTable.add hash RmnetNssCtx.rmnetDev w.table ⟨d⟩) d =
        some ⟨d⟩ := HashTable.find_add_self w.table ⟨d⟩
    have hother : ∀ d', d ≠ d' →
        rmnetNssFindCtx hash (HashTable.add hash RmnetNssCtx.rmnetDev w.table ⟨d⟩) d' =
          rmnetNssFindCtx hash w.table d' := fun d' hne ↦ HashTable.find_add_of_ne w.table hne
    rw [heq]
    dsimp only
    rw [if_neg (by decide)]
    refine hw.of_update d ?_ fun d' hne ↦ ?_
    · simp [ChildPhase.Ok, hhandler, hfind]
    · simp [Function.update_of_ne (Ne.symm hne), hother d' hne]

/-- **In no order of events does a child have a receive handler without a context.** -/
theorem ready_step {w w' : NssWorld} (hw : w.Ready hash) (h : NssStep hash nssCb w w') :
    w'.Ready hash := by
  cases h with
  | registerNetdev d h =>
    have hok := hw d
    rw [h] at hok
    refine hw.of_update d ?_ fun d' hne ↦ ?_
    · simpa [ChildPhase.Ok] using hok
    · simp [Function.update_of_ne (Ne.symm hne)]
  | nssCreate d kzalloc rxCreate h => exact ready_nssCreate hw h kzalloc rxCreate
  | withoutNss d h =>
    have hok := hw d
    rw [h] at hok
    refine hw.of_update d ?_ fun d' hne ↦ ?_
    · simp [ChildPhase.Ok, hok.1, hok.2]
    · simp [Function.update_of_ne (Ne.symm hne)]
  | rxHandlerRegister d ok h =>
    have hok := hw d
    rw [h] at hok
    refine hw.of_update d ?_ fun d' hne ↦ ?_
    · simp [ChildPhase.Ok, hok.1, hok.2.2]
    · simp [Function.update_of_ne (Ne.symm hne)]
  | rxHandlerUnregister d h huse =>
    refine hw.of_update d ?_ fun d' hne ↦ ?_
    · simp [ChildPhase.Ok]
    · simp [Function.update_of_ne (Ne.symm hne)]
  | nssFree d h =>
    have hok := hw d
    rw [h] at hok
    refine hw.of_update d ?_ fun d' hne ↦ ?_
    · simpa [ChildPhase.Ok] using hok
    · simp [Function.update_of_ne (Ne.symm hne), rmnetNssFreeVnd_of_ne hne]
  | freeNetdev d h =>
    have hok := hw d
    refine hw.of_update d ?_ fun d' hne ↦ ?_
    · rcases h with h | ⟨h, huse⟩
      · rw [h] at hok
        simpa [ChildPhase.Ok] using hok
      · rw [h, huse] at hok
        simpa [ChildPhase.Ok] using hok
    · simp [Function.update_of_ne (Ne.symm hne)]
  | arrive => exact hw
  | exception => exact hw

/-! ## Every packet is accounted for -/

theorem next_ne_fresh (at₀ : Place) (a : Action) : at₀.next a ≠ some .fresh := by
  cases at₀ <;> cases a <;> simp [Place.next]

/-- A packet to which something happened is never new again. -/
theorem history_eq_nil {log : List (Nat × Action)} {p : Nat}
    (h : Custody.place Place.next .fresh log p = some .fresh) : Custody.history log p = [] := by
  rw [Custody.place] at h
  rcases List.eq_nil_or_concat (Custody.history log p) with hnil | ⟨acts, a, hacts⟩
  · exact hnil
  · rw [hacts, List.concat_eq_append, List.foldlM_append] at h
    obtain ⟨at₀, -, hlast⟩ := Option.bind_eq_some_iff.1 h
    exact absurd (by simpa using hlast) (next_ne_fresh at₀ a)

/-- Settled actions on a packet that was just given take it to one of its ends. -/
theorem Settled.foldlM {acts : List Action} (h : Settled acts) {at₀ : Place}
    (hat : at₀ = .fresh ∨ at₀ = .nss) :
    ∃ place, (Action.given :: acts).foldlM Place.next at₀ = some place ∧ place ≠ .host := by
  rcases hat with rfl | rfl <;> rcases h with ⟨e, he⟩ | ⟨e, he⟩ <;> cases e <;>
    simp_all [Action.isEnd, Place.next]

/-- The books are in order: every packet has a place that is not the driver's, and was given to
`rmnet_nss_tx` at most once. -/
structure NssWorld.Accounted (w : NssWorld) : Prop where
  settled : ∀ p, ∃ place, w.placeOf p = some place ∧ place ≠ .host
  once : ∀ p, (Custody.history w.log p).count .enterTx ≤ 1

theorem accounted_init : NssWorld.init.Accounted :=
  ⟨fun _ ↦ ⟨.fresh, rfl, by decide⟩, fun _ ↦ Nat.zero_le 1⟩

/-- One packet is given and settled: a new one, or one that had been with NSS and is not given there
again. -/
theorem NssWorld.Accounted.burst {w : NssWorld} (hw : w.Accounted) {p : Nat} {acts : List Action}
    (hacts : Settled acts) {at₀ : Place} (hp : w.placeOf p = some at₀)
    (hat : at₀ = .fresh ∨ at₀ = .nss ∧ acts.count .enterTx = 0) :
    { w with log := w.log ++ Custody.burst p (Action.given :: acts) : NssWorld }.Accounted := by
  refine ⟨fun q ↦ ?_, fun q ↦ ?_⟩
  · by_cases hq : p = q
    · subst hq
      obtain ⟨place, hplace, hne⟩ := hacts.foldlM (hat.imp_right And.left)
      exact ⟨place, (Custody.place_append_self hp _).trans hplace, hne⟩
    · rw [NssWorld.placeOf, Custody.place_append_of_ne _ hq]
      exact hw.settled q
  · by_cases hq : p = q
    · subst hq
      rw [Custody.history_append_self, List.count_append, List.count_cons_of_ne (by decide)]
      rcases hat with rfl | ⟨-, hzero⟩
      · rw [history_eq_nil hp, List.count_nil, Nat.zero_add]
        exact hacts.count_le
      · rw [hzero]
        exact hw.once p
    · rw [Custody.history_append_of_ne _ hq]
      exact hw.once q

theorem accounted_step {w w' : NssWorld} (hready : w.Ready hash) (hw : w.Accounted)
    (h : NssStep hash nssCb w w') : w'.Accounted := by
  cases h with
  | arrive p skb env fuel acts hp hdev h =>
    exact hw.burst (netifReceiveSkb_settled (fun hd ↦ hready.ctx hd) h) hp (.inl rfl)
  | exception p dev skb env fuel acts hp hdev h =>
    obtain ⟨e, he, rfl⟩ := rmnetNssReceive_settled h
    have hcount : [e].count .enterTx = 0 := by
      cases e <;> simp_all [Action.isEnd]
    rcases hp with hp | hp
    · exact hw.burst (.direct e he) hp (.inr ⟨rfl, hcount⟩)
    · exact hw.burst (.direct e he) hp (.inl rfl)
  | nssCreate d kzalloc rxCreate h hcb =>
    have hlog : (w.nssCreate hash d kzalloc rxCreate).log = w.log := by
      rw [NssWorld.nssCreate]
      dsimp only
      split <;> rfl
    refine ⟨fun p ↦ ?_, fun p ↦ ?_⟩
    · rw [NssWorld.placeOf, hlog]
      exact hw.settled p
    · rw [hlog]
      exact hw.once p
  | _ => exact ⟨hw.settled, hw.once⟩

/-- **Packet ownership.**  However children come and go and whatever packets, exceptions and answers
of NSS there are in between: no packet is freed or passed on by someone who no longer holds it, none
is abandoned, none is given to `rmnet_nss_tx` twice; the receive handler has disposed of exactly
what it reports as consumed, and every call of it returns. -/
theorem nss_ownership (hash : Nat → Nat) (nssCb : Bool) {w : NssWorld}
    (h : ReflTransGen (NssStep hash nssCb) NssWorld.init w) :
    (∀ p, ∃ place, w.placeOf p = some place ∧ place ≠ .host) ∧
    (∀ p, (Custody.history w.log p).count .enterTx ≤ 1) ∧
    (∀ env fuel skb r acts, w.handler skb.dev = true →
      qcaNssRxHandler hash nssCb w.table env fuel
        (netifReceiveSkb hash nssCb w.handler w.table env fuel) (some skb) = some (r, acts) →
      acts.countP Action.isEnd = if r = .consumed then 1 else 0) ∧
    ∀ env skb, ∃ fuel acts,
      netifReceiveSkb hash nssCb w.handler w.table env fuel skb = some acts := by
  obtain ⟨hready, hacc⟩ : w.Ready hash ∧ w.Accounted := by
    have hinv : ∀ c c' : NssWorld, c.Ready hash ∧ c.Accounted → NssStep hash nssCb c c' →
        c'.Ready hash ∧ c'.Accounted :=
      fun c c' hc hstep ↦ ⟨ready_step hc.1 hstep, accounted_step hc.1 hc.2 hstep⟩
    exact invariant_run hinv ⟨ready_init, accounted_init⟩ h
  refine ⟨hacc.settled, hacc.once, fun env fuel skb r acts hd hr ↦ ?_, fun env skb ↦ ?_⟩
  · rcases qcaNssRxHandler_settled (hready.ctx hd) hr with ⟨rfl, hs⟩ | ⟨⟨s, rfl⟩, rfl⟩
    · exact hs.countP_isEnd
    · rfl
  · exact netifReceiveSkb_returns skb

/-- NSS is busy once and then takes the packet. -/
def busyOnce : Surroundings where
  linearize := false
  answers := fun n ↦ if n = 0 then .failureQueue else .success
  finite := ⟨1, by decide⟩

/-- A packet of one byte on device 7. -/
def onSeven : Skb := { dev := 7, head := [0x45] }

/-- The same packet with the link layer header that NSS wants. -/
def onSevenEth : Skb :=
  { dev := 7, head := List.replicate 12 0 ++ [0x08, 0x00, 0x45], protocol := ethP8023 }

/-- A child comes up, and NSS takes a packet that it then gives back. -/
theorem nss_ownership_exception : ∃ w, ReflTransGen (NssStep id true) NssWorld.init w ∧
    Custody.history w.log 1 = [.given, .enterTx, .toNss onSevenEth, .given,
      .toStack { onSeven with protocol := 0x0800 }] ∧
    ∃ place, w.placeOf 1 = some place ∧ place ≠ .host := by
  have hrun : ReflTransGen (NssStep id true) NssWorld.init _ :=
    ((((ReflTransGen.single (NssStep.registerNetdev NssWorld.init 7 rfl)).tail
    (.nssCreate _ 7 true true rfl rfl)).tail
    (.rxHandlerRegister _ 7 true rfl)).tail
    (.arrive _ 1 onSeven busyOnce 2 [.enterTx, .toNss onSevenEth] rfl (by decide) rfl)).tail
    (.exception _ 1 7 onSevenEth busyOnce 2
    [.toStack { onSeven with protocol := 0x0800 }] (.inl rfl)
      (by decide) rfl)
  exact ⟨_, hrun, rfl, (nss_ownership id true hrun).1 1⟩

end OpenwrtFeed.Mhi
