import NetworkingLabs.RouterConvergence
import NetworkingLabs.RouterMessages
import NetworkingLabs.RouterDelivery

/-!
# The network on the bytes of its packets

The same routers, but what is under way are packets as they lie in memory. Only the header and the
message of a packet are transmitted: what lies behind the message in the buffer of the receiver may
be anything.
-/
namespace NetworkingLabs.Routing
open TransitionSystem

section System

/-- The packets agree in the header and in as many bytes of the payload as there are of the
message. -/
def RawPacket.SameMessage (pk pk' : RawPacket) : Prop :=
  (pk.src = pk'.src ∧ pk.dst = pk'.dst) ∧ pk.type = pk'.type ∧ pk.length = pk'.length ∧
  pk.payload.bytes.take (pk'.length.toNat - headerSize) =
    pk'.payload.bytes.take (pk'.length.toNat - headerSize)

instance (pk pk' : RawPacket) : Decidable (pk.SameMessage pk') :=
  inferInstanceAs (Decidable (_ ∧ _ ∧ _ ∧ _))

structure Bytes where
  w : Routers
  sent : List (ℕ × RawPacket)

inductive BytesMove
  | command (r : ℕ) (c : Command) (src dst : IPAddr) (payload : Buffer maxPayloadSize)
  | deliver (s r : ℕ) (pk : RawPacket)
  | data (r : ℕ) (inPort : ℤ) (pk : RawPacket)

/-- A link is changed at the port of a cable, to a proper length, while there is another version
left in an `int`. -/
def Command.Proper (C : Cabling) (w : Routers) (r : ℕ) : Command → Prop
  | .portValueChange port value =>
    (C.behind r port).isSome ∧ LinkValue value ∧ w.shared.lstChangeVersion + 1 < 2 ^ 31
  | .triggerDVSend | .releaseNATItem _ _ _ _ | .addHost _ _ _ _ _ => True

/-- Behind the text of a command there is no digit. -/
def Bytes.Allowed (C : Cabling) (st : Bytes) : BytesMove → Prop
  | .command r c _ _ payload => (1 ≤ r ∧ r ≤ C.n) ∧ c.WellFormed ∧ c.Proper C st.w r ∧
    Text.NoDigit (c.leftover payload)
  | .deliver s r pk => (C.port r s).isSome ∧ ∃ p ∈ st.sent, p.1 = s ∧ pk.SameMessage p.2
  | .data r _ pk => (1 ≤ r ∧ r ≤ C.n) ∧ pk.type = typeData ∧ pk.length.toNat ≤ maxPayloadSize

/-- What a call broadcasts: the buffer of the packet, after `memcpy`. -/
def Outcome.broadcast (o : Outcome) (pk : RawPacket) : Option RawPacket :=
  o.advert.map fun _ => o.router.dvInfoInto o.shared.totRouterNum pk

/-- A call of `router()` at `r` on the bytes of a packet; `none` if the call reads what is not
there. -/
def Bytes.call (st : Bytes) (r : ℕ) (inPort : ℤ) (pk : RawPacket) : Option Bytes := do
  let out ← (st.w.routers r).receive st.w.shared inPort pk
  some ⟨⟨Function.update st.w.routers r out.router, out.shared⟩,
    st.sent ++ ((out.broadcast pk).map fun pk => (r, pk)).toList⟩

def Bytes.move (C : Cabling) (st : Bytes) : BytesMove → Option Bytes
  | .command r c src dst payload => st.call r 1 (c.packet src dst payload)
  | .deliver s r pk => st.call r ((C.port r s).getD 0) pk
  | .data r inPort pk => st.call r inPort pk

/-- A call without a result leaves the state: that this does not happen is to be proved. -/
def bytes (C : Cabling) : TransitionSystem Bytes BytesMove where
  init st := st.w.Fresh C ∧ st.sent = []
  enabled := Bytes.Allowed C
  next st mv := (st.move C mv).getD st

end System

variable {C : Cabling} {st : Bytes} {lossySt : Lossy} {R : Router} {sh : Shared} {inPort : ℤ}
  {r s t tot own : ℕ} {pk pk' : RawPacket} {a : Advert} {src dst : IPAddr} {c : Command}

section Messages

/-- Whatever lies behind the message, any other router reads `a`. -/
def RawPacket.Says (tot : ℕ) (pk : RawPacket) (a : Advert) : Prop :=
  (pk.src = 0 ∧ pk.dst = 0) ∧ ∀ pk' : RawPacket, pk'.SameMessage pk →
    ∀ own, own ≠ a.sender → pk'.body own tot = some (.dv a.sender a.version a.row)

theorem RawPacket.SameMessage.payload_eq {text : List UInt8} (h : pk'.SameMessage pk)
    (hlength : pk.length.toNat = headerSize + text.length)
    (hroom : headerSize + text.length ≤ maxPayloadSize)
    {payload : Buffer maxPayloadSize} (hpayload : pk.payload = payload.fill text) :
    pk'.payload = pk'.payload.fill text := by
  obtain ⟨-, -, -, htake⟩ := h
  have hsmall : text.length ≤ maxPayloadSize := by omega
  have htext : pk'.payload.bytes.take text.length = text := by
    rw [hlength, Nat.add_sub_cancel_left, hpayload] at htake
    rw [htake]
    show (text.take maxPayloadSize ++ payload.bytes.drop text.length).take text.length = text
    rw [List.take_of_length_le hsmall]
    exact List.take_left
  ext1
  show pk'.payload.bytes = text.take maxPayloadSize ++ pk'.payload.bytes.drop text.length
  rw [List.take_of_length_le hsmall]
  conv_lhs => rw [← List.take_append_drop text.length pk'.payload.bytes, htext]

private theorem says_dvInfoInto (pk : RawPacket) (htot : tot < 100) (hwf : R.dv.WF tot)
    (hver : 0 ≤ R.dv.version ∧ R.dv.version < 2 ^ 31) :
    (R.dvInfoInto tot pk).Says tot (R.advert tot) := by
  have hid := hwf.id
  have hver' : -2 ^ 31 ≤ R.dv.version ∧ R.dv.version < 2 ^ 31 := by omega
  have hrow : ∀ x ∈ R.dv.row tot, -2 ^ 31 ≤ x ∧ x < 2 ^ 31 := by
    intro x hx
    obtain ⟨i, hi, rfl⟩ := List.mem_map.mp hx
    have hentry := hwf.own_range (DV.mem_range'.mp hi)
    rw [inf] at hentry
    omega
  have hlen := length_toString_le htot (by omega) hver' hrow
  have hsize : headerSize = 12 := rfl
  have hmax : maxPayloadSize = 16372 := rfl
  have hlength : (R.dvInfoInto tot pk).length.toNat = headerSize + (R.dv.toString tot).length :=
    toNat_length (by omega)
  have hpayload : (R.dvInfoInto tot pk).payload = pk.payload.fill (R.dv.toString tot) := by
    show pk.payload.fill ((R.dv.toString tot).take
      ((R.dvInfoInto tot pk).length.toNat - headerSize)) = _
    rw [hlength, Nat.add_sub_cancel_left, List.take_length]
  refine ⟨⟨rfl, rfl⟩, fun pk' hsame own hown => ?_⟩
  have hfill := hsame.payload_eq hlength (by omega) hpayload
  obtain ⟨-, htype, hlength', -⟩ := hsame
  have htype' : pk'.type = typeDV := htype
  have hcmd := cmd_fill (by rw [hlength', hlength]) (by omega) hfill
  rw [RawPacket.body, hcmd, Option.bind_eq_bind, Option.bind_some, if_pos htype',
    dvBody_toString hown (by omega) hver' hrow]
  rfl

end Messages

section Refinement

/-- The lossy network has the same routers, and whatever is under way says something that was sent
there. -/
structure Bytes.Refines (C : Cabling) (st : Bytes) (lossySt : Lossy) : Prop where
  routers : st.w = lossySt.w
  sent : ∀ s pk, (s, pk) ∈ st.sent → ∃ a, (s, a) ∈ lossySt.sent ∧ pk.Says C.n a
  versions : st.w.shared.lstChangeVersion < 2 ^ 31

private theorem advert_of_ret {o : Outcome} (h : o.ret = some (-1)) : o.advert = none := by
  unfold Outcome.advert
  split
  · rename_i hzero _
    exact absurd (h.symm.trans hzero) (by decide)
  · rfl

/-- What a call broadcasts is the row that the router is left with. -/
theorem advert_eq {pk : Packet} (h : (R.router sh inPort pk).advert = some a) :
    a = (R.router sh inPort pk).router.advert (R.router sh inPort pk).shared.totRouterNum := by
  obtain ⟨src, dst, body⟩ := pk
  cases body with
  | data =>
    have hplain : (Packet.mk src dst .data).body.Plain := trivial
    obtain ⟨-, -, -, -, -, -, -, hnone⟩ := router_plain R sh inPort hplain
    rw [hnone] at h
    cases h
  | releaseNATItem hostIP =>
    rw [advert_of_ret rfl] at h
    cases h
  | addHost port hostIP =>
    rw [advert_of_ret rfl] at h
    cases h
  | portValueChange port value =>
    rw [advert_of_ret rfl] at h
    cases h
  | triggerDVSend => exact (Option.some.inj h).symm
  | dv rid version row =>
    have hout : R.router sh inPort ⟨src, dst, .dv rid version row⟩ =
        R.onDV sh inPort ⟨src, dst, .dv rid version row⟩ rid version row := rfl
    rw [hout] at h ⊢
    by_cases hself : rid = R.routerID
    · have hdrop : (R.onDV sh inPort ⟨src, dst, .dv rid version row⟩ rid version row).ret =
          some (-1) := by
        rw [Router.onDV, if_pos hself]
      rw [advert_of_ret hdrop] at h
      cases h
    · obtain ⟨-, hshared, hret⟩ := onDV_spec sh inPort ⟨src, dst, .dv rid version row⟩ version row
        hself
      rcases hret with ⟨hret, -⟩ | ⟨hret, -, hpacket⟩
      · rw [advert_of_ret hret] at h
        cases h
      · rw [Outcome.advert, hret, hpacket] at h
        rw [hshared]
        exact (Option.some.inj h).symm

private theorem version_nonneg (h : (lossy C).Reachable lossySt) (hr : 1 ≤ r ∧ r ≤ C.n) :
    0 ≤ (lossySt.w.dv r).version := by
  induction h with
  | init h =>
    obtain ⟨e, ipMin, ipMax, address, hfresh⟩ := h.1.2.2 r hr
    rw [Routers.dv, hfresh]
    exact le_rfl
  | step h mv hmv ih =>
    obtain ⟨lo, hinv⟩ := netInv_lossy h
    exact ih.trans ((hinv.move_advances hmv).1 r).version

theorem Bytes.Refines.call (h : st.Refines C lossySt) {body : Body}
    (hbody : pk.body (st.w.routers r).routerID st.w.shared.totRouterNum = some body)
    {p : Packet} (hr : 1 ≤ r ∧ r ≤ C.n)
    (hrouter : ((st.w.routers r).router st.w.shared inPort ⟨pk.src, pk.dst, body⟩).router =
      ((st.w.routers r).router st.w.shared inPort p).router)
    (hshared : ((st.w.routers r).router st.w.shared inPort ⟨pk.src, pk.dst, body⟩).shared =
      ((st.w.routers r).router st.w.shared inPort p).shared)
    (hadvert : ((st.w.routers r).router st.w.shared inPort ⟨pk.src, pk.dst, body⟩).advert =
      ((st.w.routers r).router st.w.shared inPort p).advert)
    (hreach : (lossy C).Reachable (lossySt.call r inPort p))
    (hver : (lossySt.call r inPort p).w.shared.lstChangeVersion < 2 ^ 31) :
    ∃ st', st.call r inPort pk = some st' ∧ st'.Refines C (lossySt.call r inPort p) := by
  obtain ⟨lo, hinv⟩ := netInv_lossy hreach
  have hreceive : (st.w.routers r).receive st.w.shared inPort pk =
      some ((st.w.routers r).router st.w.shared inPort ⟨pk.src, pk.dst, body⟩) := by
    rw [Router.receive, hbody]
    rfl
  refine ⟨_, by rw [Bytes.call, hreceive]; rfl, ?_, ?_, ?_⟩
  · show (⟨Function.update st.w.routers r _, _⟩ : Routers) = (lossySt.w.call r inPort p).1
    rw [hrouter, hshared, h.routers]
    rfl
  · intro s pk₁ hmem
    rcases List.mem_append.mp hmem with hmem | hmem
    · obtain ⟨a, ha, hsays⟩ := h.sent s pk₁ hmem
      exact ⟨a, List.mem_append_left _ ha, hsays⟩
    · -- the packet is the one that the call has left
      cases ha : ((st.w.routers r).router st.w.shared inPort ⟨pk.src, pk.dst, body⟩).advert with
      | none => simp [Outcome.broadcast, ha] at hmem
      | some a =>
        obtain ⟨rfl, rfl⟩ : s = r ∧ pk₁ = _ := by simpa [Outcome.broadcast, ha] using hmem
        refine ⟨a, List.mem_append_right _ ?_, ?_⟩
        · rw [hadvert, h.routers] at ha
          show (s, a) ∈ (((lossySt.w.routers s).router lossySt.w.shared inPort p).advert.map
            fun a => (s, a)).toList
          rw [ha]
          exact List.mem_singleton_self _
        · have hwf := hinv.versions.wf s hr
          have hle := hinv.versions.version_le s hr
          have hnonneg := version_nonneg hreach hr
          have htot : ((st.w.routers s).router st.w.shared inPort
              ⟨pk.src, pk.dst, body⟩).shared.totRouterNum = C.n := by
            rw [hshared, h.routers]
            exact hinv.tot
          have hdv : (lossySt.call s inPort p).w.dv s = ((st.w.routers s).router st.w.shared
              inPort ⟨pk.src, pk.dst, body⟩).router.dv := by
            rw [hrouter, h.routers]
            exact call_dv_self ..
          rw [hdv] at hwf hle hnonneg
          rw [advert_eq ha, htot]
          exact says_dvInfoInto pk C.lt_maxn hwf ⟨hnonneg, by omega⟩
  · show ((st.w.routers r).router st.w.shared inPort
      ⟨pk.src, pk.dst, body⟩).shared.lstChangeVersion < 2 ^ 31
    rw [hshared, h.routers]
    exact hver

private theorem behind_eq_some {p : ℤ} (h : C.behind r p = some t) : C.port r t = some p := by
  simpa using List.find?_some h

theorem router_addresses (R : Router) (sh : Shared) (inPort : ℤ) {body : Body} {p : Packet}
    (hp : body = .data ∨ (∃ rid version row, body = .dv rid version row) → p = ⟨src, dst, body⟩)
    (hp' : p.body = body) :
    (R.router sh inPort ⟨src, dst, body⟩).router = (R.router sh inPort p).router ∧
    (R.router sh inPort ⟨src, dst, body⟩).shared = (R.router sh inPort p).shared ∧
    (R.router sh inPort ⟨src, dst, body⟩).advert = (R.router sh inPort p).advert := by
  obtain ⟨src', dst', body'⟩ := p
  subst hp'
  cases body' with
  | data => rw [hp (Or.inl rfl)]; exact ⟨rfl, rfl, rfl⟩
  | dv rid version row =>
    rw [hp (Or.inr ⟨_, _, _, rfl⟩)]
    exact ⟨rfl, rfl, rfl⟩
  | releaseNATItem hostIP => exact ⟨rfl, rfl, rfl⟩
  | addHost port hostIP => exact ⟨rfl, rfl, rfl⟩
  | portValueChange port value => exact ⟨rfl, rfl, rfl⟩
  | triggerDVSend => exact ⟨rfl, rfl, rfl⟩

private theorem body_packet (h : c.WellFormed) {payload : Buffer maxPayloadSize}
    (hpayload : Text.NoDigit (c.leftover payload)) :
    (c.packet src dst payload).body own tot = some c.body := by
  have hlen := Command.length_text_le h
  have hsize : headerSize = 12 := rfl
  have hmax : maxPayloadSize = 16372 := rfl
  have hlength : (c.packet src dst payload).length.toNat = headerSize + c.text.length :=
    toNat_length (by omega)
  have hcmd := cmd_fill hlength (by omega) rfl
  have hdv : ¬ (c.packet src dst payload).type = typeDV := by
    show ¬ typeControl = typeDV
    decide
  have hdata : ¬ (c.packet src dst payload).type = typeData := by
    show ¬ typeControl = typeData
    decide
  rw [RawPacket.body, hcmd, Option.bind_eq_bind, Option.bind_some, if_neg hdv, if_neg hdata]
  exact controlBody_noDigit h hpayload

/-- One move makes one version at most, and only the change of a link does. -/
theorem lst_move (hreach : (lossy C).Reachable lossySt) {mv : LossyMove}
    (hmv : lossySt.Allowed C mv) :
    (lossySt.move C mv).w.shared.lstChangeVersion ≤ lossySt.w.shared.lstChangeVersion + 1 ∧
    (¬ lossySt.Lengthens C mv → (lossySt.move C mv).w.shared.lstChangeVersion =
      lossySt.w.shared.lstChangeVersion) := by
  obtain ⟨lo, hinv⟩ := netInv_lossy hreach
  rw [(hinv.move_advances hmv).2]
  refine ⟨by split_ifs <;> omega, fun hnot => ?_⟩
  rw [if_neg hnot, add_zero]

/-- What a move of the lossy network has to be for a call on bytes to follow it. -/
theorem Bytes.Refines.follow (h : st.Refines C lossySt) (hreach : (lossy C).Reachable lossySt)
    {body : Body}
    (hbody : pk.body (st.w.routers r).routerID st.w.shared.totRouterNum = some body)
    (hr : 1 ≤ r ∧ r ≤ C.n) {mv : LossyMove} (hmv : lossySt.Allowed C mv)
    (hfew : lossySt.Lengthens C mv → lossySt.w.shared.lstChangeVersion + 1 < 2 ^ 31)
    {p : Packet} (hcall : lossySt.move C mv = lossySt.call r inPort p)
    (hp : body = .data ∨ (∃ rid version row, body = .dv rid version row) →
      p = ⟨pk.src, pk.dst, body⟩) (hp' : p.body = body) :
    ∃ st' mv', st.call r inPort pk = some st' ∧ lossySt.Allowed C mv' ∧
      st'.Refines C (lossySt.move C mv') := by
  have hnext : (lossy C).Reachable (lossySt.move C mv) := hreach.step mv hmv
  have hver : (lossySt.move C mv).w.shared.lstChangeVersion < 2 ^ 31 := by
    obtain ⟨hle, hsame⟩ := lst_move hreach hmv
    have hversions := h.versions
    rw [h.routers] at hversions
    by_cases hlong : lossySt.Lengthens C mv
    · have := hfew hlong
      omega
    · rw [hsame hlong]
      exact hversions
  rw [hcall] at hnext hver
  obtain ⟨hrouter, hshared, hadvert⟩ := router_addresses (st.w.routers r) st.w.shared inPort hp hp'
  obtain ⟨st', hst', href⟩ := h.call hbody hr hrouter hshared hadvert hnext hver
  exact ⟨st', mv, hst', hmv, by rwa [hcall]⟩

/-- Every move on bytes is one of the lossy network, and has a result. -/
theorem Bytes.Refines.move (h : st.Refines C lossySt) (hreach : (lossy C).Reachable lossySt)
    {mv : BytesMove} (hmv : st.Allowed C mv) :
    ∃ st' mv', st.move C mv = some st' ∧ lossySt.Allowed C mv' ∧
      st'.Refines C (lossySt.move C mv') := by
  cases mv with
  | data r inPort pk =>
    obtain ⟨hr, htype, hlength⟩ := hmv
    have hdv : ¬ typeData = typeDV := by decide
    have hbody : ∀ own tot, pk.body own tot = some .data := by
      intro own tot
      rw [RawPacket.body, RawPacket.cmd, if_pos hlength, htype]
      simp [hdv]
    have hmv' : lossySt.Allowed C (.plain r inPort ⟨pk.src, pk.dst, .data⟩) := ⟨hr, trivial⟩
    exact h.follow hreach (hbody _ _) hr hmv' False.elim rfl (fun _ => rfl) rfl
  | deliver s r pk =>
    obtain ⟨hport, ⟨s', pk₀⟩, hmem, rfl, hsame⟩ := hmv
    obtain ⟨a, ha, hzero, hsays⟩ := h.sent _ _ hmem
    obtain ⟨p, hp⟩ := Option.isSome_iff_exists.mp hport
    obtain ⟨hr, -, hne⟩ := C.ids hp
    obtain ⟨lo, hinv⟩ := netInv_lossy hreach
    have hown : (st.w.routers r).routerID ≠ a.sender := by
      rw [h.routers, (hinv.linked r hr).routerID, (hinv.versions.sent _ ha).2.1]
      exact hne
    have htot : st.w.shared.totRouterNum = C.n := by
      rw [h.routers]
      exact hinv.tot
    have hbody := hsays pk hsame _ hown
    rw [← htot] at hbody
    have hpacket : a.packet = ⟨pk.src, pk.dst, .dv a.sender a.version a.row⟩ := by
      rw [hsame.1.1, hsame.1.2, hzero.1, hzero.2]
      rfl
    have hmv' : lossySt.Allowed C (.deliver s' r a) := ⟨hport, ha⟩
    exact h.follow hreach hbody hr hmv' False.elim rfl (fun _ => hpacket) rfl
  | command r c src dst payload =>
    obtain ⟨hr, hwf, hproper, hpayload⟩ := hmv
    have hbody : (c.packet src dst payload).body (st.w.routers r).routerID
        st.w.shared.totRouterNum = some c.body := body_packet hwf hpayload
    cases c with
    | triggerDVSend =>
      have hmv' : lossySt.Allowed C (.trigger r) := hr
      exact h.follow hreach hbody hr hmv' False.elim rfl (by simp [Command.body]) rfl
    | releaseNATItem a b c d =>
      have hmv' : lossySt.Allowed C (.plain r 1 ⟨0, 0, .releaseNATItem (ofOctets a b c d)⟩) :=
        ⟨hr, trivial⟩
      exact h.follow hreach hbody hr hmv' False.elim rfl (by simp [Command.body]) rfl
    | addHost port a b c d =>
      have hmv' : lossySt.Allowed C (.plain r 1 ⟨0, 0, .addHost port (ofOctets a b c d)⟩) :=
        ⟨hr, trivial⟩
      exact h.follow hreach hbody hr hmv' False.elim rfl (by simp [Command.body]) rfl
    | portValueChange port value =>
      obtain ⟨hbehind, hvalue, hfew⟩ := hproper
      obtain ⟨t, ht⟩ := Option.isSome_iff_exists.mp hbehind
      have hport := behind_eq_some ht
      have hmv' : lossySt.Allowed C (.portValue r t value) := ⟨by simp [hport], hvalue⟩
      rw [h.routers] at hfew
      exact h.follow hreach hbody hr hmv' (fun _ => hfew) rfl (by simp [Command.body])
        (by simp [Cabling.portValue, hport, Command.body])

end Refinement
end NetworkingLabs.Routing
