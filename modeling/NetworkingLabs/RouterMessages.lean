import NetworkingLabs.ByteMemory
import NetworkingLabs.RouterText

/-!
# Packets as they lie in memory

What `dvInfo` writes into a packet buffer, and how `router()` takes the text of a payload apart. The
string that it makes of the payload is as long as header and payload together.
-/
namespace NetworkingLabs.Routing
open Text

section Packets

def headerSize : ℕ := 12

def maxPayloadSize : ℕ := 16384 - headerSize

def typeDV : UInt8 := 0x00
def typeData : UInt8 := 0x01
def typeControl : UInt8 := 0x02

structure RawPacket where
  src : IPAddr
  dst : IPAddr
  type : UInt8
  length : UInt16
  payload : Buffer maxPayloadSize
  deriving DecidableEq

/-- `string cmd(inPack->payload, inPacHeader->length)`; `none` reads past the payload. -/
def RawPacket.cmd (pk : RawPacket) : Option (List UInt8) :=
  if pk.length.toNat ≤ maxPayloadSize then some (pk.payload.bytes.take pk.length.toNat) else none

def extract (cmdss : Option (List UInt8)) : Option ℤ × Option (List UInt8) :=
  extractInt (-2 ^ 31) (2 ^ 31 - 1) cmdss

/-- `cmdss >> temdv[i]` for so many entries; `none` leaves one of them as it was. -/
def readRow : ℕ → Option (List UInt8) → Option (List ℤ)
  | 0, _ => some []
  | n + 1, cmdss => do
    let (entry, cmdss) := extract cmdss
    let entry ← entry
    let row ← readRow n cmdss
    some (entry :: row)

/-- The text of a DV packet; `none` depends on what was not read, or uses a negative index. -/
def dvBody (own tot : ℕ) (cmd : List UInt8) : Option Body := do
  let (rid, cmdss) := extract (some cmd)
  let (version, cmdss) := extract cmdss
  let rid ← rid
  -- the router drops its own messages before it looks at the rest
  if rid = own then some (.dv own 0 [])
  else
    let version ← version
    let row ← readRow tot cmdss
    if rid < 0 then none else some (.dv rid.toNat version row)

def controlBody (cmd : List UInt8) : Option Body := do
  let (cmdType, cmdss) := extract (some cmd)
  let cmdType ← cmdType
  if cmdType = 0 then some .triggerDVSend
  else if cmdType = 1 then
    let ipString ← (extractWord cmdss).1
    some (.releaseNATItem (Router.dotDec2IP ipString))
  else if cmdType = 2 then
    let (port, cmdss) := extract cmdss
    let port ← port
    let value ← (extract cmdss).1
    some (.portValueChange port value)
  else
    let (port, cmdss) := extract cmdss
    let port ← port
    let ipString ← (extractWord cmdss).1
    some (.addHost port (Router.dotDec2IP ipString))

def RawPacket.body (pk : RawPacket) (own tot : ℕ) : Option Body := do
  let cmd ← pk.cmd
  if pk.type = typeDV then dvBody own tot cmd
  else if pk.type = typeData then some .data
  else controlBody cmd

/-- `router(in_port, packet)` on the bytes of a packet. -/
def Router.receive (R : Router) (sh : Shared) (inPort : ℤ) (pk : RawPacket) : Option Outcome := do
  let body ← pk.body R.routerID sh.totRouterNum
  some (R.router sh inPort ⟨pk.src, pk.dst, body⟩)

def spaced (xs : List ℤ) : List UInt8 := xs.flatMap fun x ↦ decimalInt x ++ [0x20]

def DV.toString (tot : ℕ) (v : DV) : List UInt8 := spaced (v.routerID :: v.version :: v.row tot)

/-- What `memcpy(packet, dvInfo(), length)` leaves in the buffer. -/
def Router.dvInfoInto (R : Router) (tot : ℕ) (packet : RawPacket) : RawPacket :=
  let dvString := R.dv.toString tot
  let length := UInt16.ofNat (headerSize + dvString.length)
  ⟨0, 0, typeDV, length, packet.payload.fill (dvString.take (length.toNat - headerSize))⟩

end Packets

section RoundTrip

variable {xs : List ℤ} {x : ℤ} {text rest : List UInt8} {tot : ℕ} {R : Router}

private theorem spaced_cons (x : ℤ) (xs : List ℤ) (rest : List UInt8) :
    spaced (x :: xs) ++ rest = decimalInt x ++ 0x20 :: (spaced xs ++ rest) := by
  simp [spaced]

/-- A number is read up to the space behind it, which is left. -/
theorem extract_spaced (h : -2 ^ 31 ≤ x ∧ x < 2 ^ 31) (text : List UInt8) :
    extract (some (decimalInt x ++ 0x20 :: text)) = (some x, some (0x20 :: text)) :=
  extractInt_decimalInt (noDigit_cons (by decide)) h.1 (by omega)

private theorem extract_space (text : List UInt8) :
    extract (some (0x20 :: text)) = extract (some text) := extractInt_space (by decide)

private theorem readRow_spaced (rest : List UInt8) (h : ∀ x ∈ xs, -2 ^ 31 ≤ x ∧ x < 2 ^ 31) :
    readRow xs.length (some (0x20 :: (spaced xs ++ rest))) = some xs := by
  induction xs with
  | nil => rfl
  | cons x xs ih =>
    have hx := h x (.head xs)
    have hxs := ih fun y hy ↦ h y (.tail x hy)
    rw [List.length_cons, readRow, extract_space, spaced_cons, extract_spaced hx]
    simp [hxs]

private theorem length_decimalInt_le (h : -2 ^ 31 ≤ x ∧ x < 2 ^ 31) :
    (decimalInt x).length ≤ 11 := by
  obtain ⟨hlo, hhi⟩ := h
  cases x with
  | ofNat n =>
    have hn : n < 10 ^ 11 := by simp at hhi; omega
    exact length_decimal_le (by decide) hn
  | negSucc n =>
    have hn : n + 1 < 10 ^ 10 := by omega
    have hlen := length_decimal_le (by decide) hn
    rw [decimalInt, List.length_cons]
    omega

private theorem length_spaced_le (h : ∀ x ∈ xs, -2 ^ 31 ≤ x ∧ x < 2 ^ 31) :
    (spaced xs).length ≤ 12 * xs.length := by
  induction xs with
  | nil => exact Nat.le_refl _
  | cons x xs ih =>
    have hx := length_decimalInt_le (h x (.head xs))
    have hxs := ih fun y hy ↦ h y (.tail x hy)
    have hcons := congrArg List.length (spaced_cons x xs [])
    simp only [List.append_nil, List.length_append, List.length_cons] at hcons
    rw [hcons, List.length_cons]
    omega

/-- A text of some length that is put into the payload is read with what follows it, up to the
length of the header more. -/
theorem cmd_fill {pk : RawPacket} {payload : Buffer maxPayloadSize}
    (hlength : pk.length.toNat = headerSize + text.length)
    (hroom : headerSize + text.length ≤ maxPayloadSize)
    (hpayload : pk.payload = payload.fill text) :
    pk.cmd = some (text ++ (payload.bytes.drop text.length).take headerSize) := by
  have hsmall : text.length ≤ maxPayloadSize := by omega
  have hbytes : pk.payload.bytes = text ++ payload.bytes.drop text.length := by
    rw [hpayload]
    show text.take maxPayloadSize ++ _ = _
    rw [List.take_of_length_le hsmall]
  rw [RawPacket.cmd, hlength, if_pos hroom, hbytes, Nat.add_comm, List.take_length_add_append]

theorem toNat_length (hroom : headerSize + text.length ≤ maxPayloadSize) :
    (UInt16.ofNat (headerSize + text.length)).toNat = headerSize + text.length := by
  have hmax : maxPayloadSize = 16372 := rfl
  rw [UInt16.toNat_ofNat', Nat.mod_eq_of_lt (by omega)]

private theorem length_row (tot : ℕ) (v : DV) : (v.row tot).length = tot := by
  rw [DV.row, List.length_map, List.length_range']

/-- The text of a DV packet is taken apart as it was put together. -/
theorem dvBody_toString {own : ℕ} {v : DV} (hown : own ≠ v.routerID) (hid : v.routerID < 2 ^ 31)
    (hver : -2 ^ 31 ≤ v.version ∧ v.version < 2 ^ 31)
    (hrow : ∀ x ∈ v.row tot, -2 ^ 31 ≤ x ∧ x < 2 ^ 31) :
    dvBody own tot (v.toString tot ++ rest) = some (.dv v.routerID v.version (v.row tot)) := by
  have hne : ¬ (v.routerID : ℤ) = own := fun h ↦ hown (by omega)
  have hpos : ¬ (v.routerID : ℤ) < 0 := by omega
  have hread := readRow_spaced rest hrow
  rw [length_row] at hread
  rw [dvBody, DV.toString, spaced_cons, spaced_cons, extract_spaced (by omega)]
  simp only [extract_space, extract_spaced hver, Option.bind_eq_bind, Option.bind_some, if_neg hne,
    hread, if_neg hpos, Int.toNat_natCast]

theorem length_toString_le {v : DV} (htot : tot < 100) (hid : v.routerID < 2 ^ 31)
    (hver : -2 ^ 31 ≤ v.version ∧ v.version < 2 ^ 31)
    (hrow : ∀ x ∈ v.row tot, -2 ^ 31 ≤ x ∧ x < 2 ^ 31) : (v.toString tot).length ≤ 1212 := by
  have hall : ∀ x ∈ (v.routerID : ℤ) :: v.version :: v.row tot, -2 ^ 31 ≤ x ∧ x < 2 ^ 31 := by
    intro x hx
    rcases List.mem_cons.mp hx with rfl | hx
    · omega
    · rcases List.mem_cons.mp hx with rfl | hx
      · exact hver
      · exact hrow x hx
  have hlen := length_spaced_le hall
  rw [List.length_cons, List.length_cons, length_row] at hlen
  rw [DV.toString]
  omega

/-- What `dvInfo` puts into a packet buffer is read back by any other router, whatever follows it
there. -/
theorem dvInfo_round_trip (R : Router) {tot own : ℕ} (packet : RawPacket) (htot : tot < 100)
    (hid : 1 ≤ R.dv.routerID ∧ R.dv.routerID ≤ tot) (hown : own ≠ R.dv.routerID)
    (hver : 0 ≤ R.dv.version ∧ R.dv.version < 2 ^ 31)
    (hrow : ∀ i, 1 ≤ i → i ≤ tot → 0 ≤ R.dv.own i ∧ R.dv.own i ≤ inf) :
    (R.dvInfoInto tot packet).body own tot = some (R.dvInfo tot).body := by
  have hver' : -2 ^ 31 ≤ R.dv.version ∧ R.dv.version < 2 ^ 31 := by omega
  have hrow' : ∀ x ∈ R.dv.row tot, -2 ^ 31 ≤ x ∧ x < 2 ^ 31 := by
    intro x hx
    obtain ⟨i, hi, rfl⟩ := List.mem_map.mp hx
    obtain ⟨h1, h2⟩ := List.mem_range'_1.mp hi
    have hentry := hrow i h1 (by omega)
    rw [inf] at hentry
    omega
  have hlen := length_toString_le htot (by omega) hver' hrow'
  have hsize : headerSize = 12 := rfl
  have hmax : maxPayloadSize = 16372 := rfl
  have hlength : (R.dvInfoInto tot packet).length.toNat =
      headerSize + (R.dv.toString tot).length := toNat_length (by omega)
  have hpayload : (R.dvInfoInto tot packet).payload = packet.payload.fill (R.dv.toString tot) := by
    show packet.payload.fill ((R.dv.toString tot).take
      ((R.dvInfoInto tot packet).length.toNat - headerSize)) = _
    rw [hlength, Nat.add_sub_cancel_left, List.take_length]
  have hcmd := cmd_fill hlength (by omega) hpayload
  have htype : (R.dvInfoInto tot packet).type = typeDV := rfl
  rw [RawPacket.body, hcmd, Option.bind_eq_bind, Option.bind_some, if_pos htype,
    dvBody_toString hown (by omega) hver' hrow']
  rfl

/-- A buffer that is full of nines behind the message. -/
theorem dvInfo_round_trip_nines :
    ((Router.init 2 0 0 0 []).dvInfoInto 2
      ⟨0, 0, 0, 0, (Buffer.zeroed _).fill (List.replicate 100 0x39)⟩).body 1 2 =
      some ((Router.init 2 0 0 0 []).dvInfo 2).body := by
  refine dvInfo_round_trip _ _ (by decide) (by decide) (by decide) (by decide) ?_
  intro i h1 h2
  have hi : i = 1 ∨ i = 2 := by omega
  rcases hi with rfl | rfl <;> decide

end RoundTrip

section Control

inductive Command
  | triggerDVSend
  | releaseNATItem (a b c d : UInt8)
  | portValueChange (port value : ℤ)
  | addHost (port : ℤ) (a b c d : UInt8)

namespace Command

def text : Command → List UInt8
  | .triggerDVSend => [0x30]
  | .releaseNATItem a b c d => 0x31 :: 0x20 :: dotted a b c d
  | .portValueChange port value => 0x32 :: 0x20 :: (decimalInt port ++ 0x20 :: decimalInt value)
  | .addHost port a b c d => 0x33 :: 0x20 :: (decimalInt port ++ 0x20 :: dotted a b c d)

def body : Command → Body
  | .triggerDVSend => .triggerDVSend
  | .releaseNATItem a b c d => .releaseNATItem (ofOctets a b c d)
  | .portValueChange port value => .portValueChange port value
  | .addHost port a b c d => .addHost port (ofOctets a b c d)

def WellFormed : Command → Prop
  | .triggerDVSend | .releaseNATItem .. => True
  | .portValueChange port value =>
    (-2 ^ 31 ≤ port ∧ port < 2 ^ 31) ∧ (-2 ^ 31 ≤ value ∧ value < 2 ^ 31)
  | .addHost port .. => -2 ^ 31 ≤ port ∧ port < 2 ^ 31

instance (c : Command) : Decidable c.WellFormed :=
  match c with
  | .triggerDVSend | .releaseNATItem .. => .isTrue trivial
  | .portValueChange .. | .addHost .. => inferInstanceAs (Decidable (_ ∧ _))

/-- The packet with the command, in a buffer that holds something already. -/
def packet (c : Command) (src dst : IPAddr) (payload : Buffer maxPayloadSize) : RawPacket :=
  ⟨src, dst, typeControl, UInt16.ofNat (headerSize + c.text.length), payload.fill c.text⟩

/-- The bytes that are read although they lie behind the payload. -/
def leftover (c : Command) (payload : Buffer maxPayloadSize) : List UInt8 :=
  (payload.bytes.drop c.text.length).take headerSize

/-- The last octet of a host, or a value, with digits behind it. -/
def hostAnd (a b c d : UInt8) (es : List UInt8) : IPAddr :=
  Router.dotDec2IP (dottedTo a b c (decimal d.toNat ++ es))

/-- What the text says with digits behind it, except for the trigger. -/
def bodyAnd (es : List UInt8) : Command → Body
  | .triggerDVSend => .triggerDVSend
  | .releaseNATItem a b c d => .releaseNATItem (hostAnd a b c d es)
  | .portValueChange port value =>
    .portValueChange port (clamp (-2 ^ 31) (2 ^ 31 - 1) (appendDigits es value))
  | .addHost port a b c d => .addHost port (hostAnd a b c d es)

end Command

variable {c : Command} {ws es : List UInt8} {src dst : IPAddr} {payload : Buffer maxPayloadSize}
  {sh : Shared} {inPort : ℤ} {R : Router} {x : ℤ}

private theorem length_dotted_le (a b c d : UInt8) : (dotted a b c d).length ≤ 15 := by
  have hoctet : ∀ o : UInt8, (decimal o.toNat).length ≤ 3 := by
    intro o
    have ho := o.toNat_lt
    exact length_decimal_le (by decide) (by omega)
  have ha := hoctet a
  have hb := hoctet b
  have hc := hoctet c
  have hd := hoctet d
  simp only [dotted, dottedTo, List.length_append, List.length_cons]
  omega

theorem Command.length_text_le (h : c.WellFormed) : c.text.length ≤ 29 := by
  cases c with
  | triggerDVSend => decide
  | releaseNATItem a b c d =>
    have hhost := length_dotted_le a b c d
    simp only [text, List.length_cons]
    omega
  | portValueChange port value =>
    have hport := length_decimalInt_le h.1
    have hvalue := length_decimalInt_le h.2
    simp only [text, List.length_cons, List.length_append]
    omega
  | addHost port a b c d =>
    have hport := length_decimalInt_le h
    have hhost := length_dotted_le a b c d
    simp only [text, List.length_cons, List.length_append]
    omega

private theorem receive_packet (h : c.WellFormed) : R.receive sh inPort (c.packet src dst payload) =
    (controlBody (c.text ++ c.leftover payload)).map fun body ↦
      R.router sh inPort ⟨src, dst, body⟩ := by
  have hlen := Command.length_text_le h
  have hsize : headerSize = 12 := rfl
  have hmax : maxPayloadSize = 16372 := rfl
  have hlength : (c.packet src dst payload).length.toNat = headerSize + c.text.length :=
    toNat_length (by omega)
  have hcmd := cmd_fill hlength (by omega) rfl
  have hdv : ¬ (c.packet src dst payload).type = typeDV := by
    show ¬ typeControl = typeDV
    decide
  have hdata : ¬ (c.packet src dst payload).type = typeData := by
    show ¬ typeControl = typeData
    decide
  have hbody : (c.packet src dst payload).body R.routerID sh.totRouterNum =
      controlBody (c.text ++ c.leftover payload) := by
    rw [RawPacket.body, hcmd, Option.bind_eq_bind, Option.bind_some, if_neg hdv, if_neg hdata]
    rfl
  rw [Router.receive, hbody]
  cases controlBody (c.text ++ c.leftover payload) <;> rfl

private theorem dotted_append (a b c d : UInt8) (ws : List UInt8) :
    dotted a b c d ++ ws = dottedTo a b c (decimal d.toNat ++ ws) := by
  simp [dotted, dottedTo]

/-- A host is read up to the first character behind it that is no digit. -/
theorem dotDec2IP_dotted_append (a b c d : UInt8) {es rest : List UInt8}
    (hes : ∀ b ∈ es, isDigit b = true) (hrest : NoDigit rest) :
    Router.dotDec2IP (dotted a b c d ++ (es ++ rest)) = Command.hostAnd a b c d es := by
  have hne : decimal d.toNat ++ es ≠ [] := by simp
  have hds : ∀ b ∈ decimal d.toNat ++ es, isDigit b = true := by
    intro b hb
    exact (List.mem_append.mp hb).elim (isDigit_decimal _ b) (hes b)
  have hnil := dotDec2IP_digits a b c hne hds noDigit_nil
  rw [List.append_nil] at hnil
  rw [dotted_append, ← List.append_assoc, dotDec2IP_digits a b c hne hds hrest, Command.hostAnd,
    hnil]

private theorem extractWord_host (a b c d : UInt8) (ws : List UInt8) :
    ∃ word, (extractWord (some (0x20 :: (dotted a b c d ++ ws)))).1 = some word ∧
      Router.dotDec2IP word = Command.hostAnd a b c d (ws.takeWhile isDigit) := by
  have hword : ∀ x, isDigit x = true ∨ x = 0x2e → (!isSpace x) = true := by
    rintro x (hx | rfl)
    · simp [isSpace_of_isDigit hx]
    · decide
  have hes : ∀ x ∈ ws.takeWhile isDigit, isDigit x = true := fun x hx ↦ List.mem_takeWhile_imp hx
  have hstart : (0x20 :: (dotted a b c d ++ ws)).dropWhile isSpace = dotted a b c d ++ ws := by
    rw [List.dropWhile_cons_of_pos (by decide), dotted_append, dottedTo,
      dropWhile_isSpace_digits (decimal_ne_nil _) (isDigit_decimal _)]
  have hne : ¬ dotted a b c d ++ ws = [] := by simp [dotted, dottedTo]
  have htail : ws.takeWhile (!isSpace ·) =
      ws.takeWhile isDigit ++ (ws.dropWhile isDigit).takeWhile (!isSpace ·) := by
    conv_lhs => rw [← List.takeWhile_append_dropWhile (p := isDigit) (l := ws)]
    exact List.takeWhile_append_of_pos fun x hx ↦ hword x (.inl (hes x hx))
  refine ⟨dotted a b c d ++ ws.takeWhile (!isSpace ·), ?_, ?_⟩
  · simp only [extractWord, hstart, if_neg hne]
    rw [List.takeWhile_append_of_pos fun x hx ↦ hword x (mem_dotted hx)]
  · rw [htail]
    exact dotDec2IP_dotted_append a b c d hes (noDigit_dropWhile ws).takeWhile

private theorem extract_type {n : ℕ} (hn : n < 10) (text : List UInt8) :
    extract (some (digit n :: 0x20 :: text)) = (some (n : ℤ), some (0x20 :: text)) := by
  have hdigit : decimalInt n = [digit n] := by
    show decimal n = _
    rw [decimal_eq, if_pos hn, Nat.mod_eq_of_lt hn, List.nil_append]
  have hread := extract_spaced (x := n) (by omega) text
  rwa [hdigit] at hread

/-- Every command but the trigger is read with the digits that follow its text. -/
theorem controlBody_text (h : c.WellFormed) (hc : c ≠ .triggerDVSend) (ws : List UInt8) :
    controlBody (c.text ++ ws) = some (c.bodyAnd (ws.takeWhile isDigit)) := by
  have hes : ∀ x ∈ ws.takeWhile isDigit, isDigit x = true := fun x hx ↦ List.mem_takeWhile_imp hx
  cases c with
  | triggerDVSend => exact absurd rfl hc
  | releaseNATItem a b c d =>
    obtain ⟨word, hword, hhost⟩ := extractWord_host a b c d ws
    have hone := extract_type (n := 1) (by decide) (dotted a b c d ++ ws)
    show controlBody (digit 1 :: 0x20 :: (dotted a b c d ++ ws)) = _
    simp [controlBody, hone, hword, hhost, Command.bodyAnd]
  | portValueChange port value =>
    have htwo := extract_type (n := 2) (by decide)
      (decimalInt port ++ 0x20 :: (decimalInt value ++ ws))
    have hport := extract_spaced h.1 (decimalInt value ++ ws)
    have hvalue : (extract (some (decimalInt value ++ ws))).1 =
        some (clamp (-2 ^ 31) (2 ^ 31 - 1) (appendDigits (ws.takeWhile isDigit) value)) := by
      have hread := extractInt_appendDigits (-2 ^ 31) (2 ^ 31 - 1) value hes (noDigit_dropWhile ws)
      rw [List.takeWhile_append_dropWhile] at hread
      rw [extract, hread]
    have htext : (Command.portValueChange port value).text ++ ws =
        digit 2 :: 0x20 :: (decimalInt port ++ 0x20 :: (decimalInt value ++ ws)) := by
      simp [Command.text, digit]
    rw [htext, controlBody]
    simp [htwo, extract_space, hport, hvalue, Command.bodyAnd]
  | addHost port a b c d =>
    obtain ⟨word, hword, hhost⟩ := extractWord_host a b c d ws
    have hthree := extract_type (n := 3) (by decide)
      (decimalInt port ++ 0x20 :: (dotted a b c d ++ ws))
    have hport := extract_spaced h (dotted a b c d ++ ws)
    have htext : (Command.addHost port a b c d).text ++ ws =
        digit 3 :: 0x20 :: (decimalInt port ++ 0x20 :: (dotted a b c d ++ ws)) := by
      simp [Command.text, digit]
    rw [htext, controlBody]
    simp [hthree, extract_space, hport, hword, hhost, Command.bodyAnd]

private theorem controlBody_trigger (hws : NoDigit ws) :
    controlBody (Command.triggerDVSend.text ++ ws) = some .triggerDVSend := by
  have hread : extract (some (decimalInt 0 ++ ws)) = (some 0, some ws) :=
    extractInt_decimalInt hws (by decide) (by decide)
  have htext : Command.triggerDVSend.text ++ ws = decimalInt 0 ++ ws := rfl
  rw [htext, controlBody, hread]
  rfl

/-- Where no digit follows, what the command says is read. -/
theorem controlBody_noDigit (h : c.WellFormed) (hws : NoDigit ws) :
    controlBody (c.text ++ ws) = some c.body := by
  have hnil : ws.takeWhile isDigit = [] := by
    cases ws with
    | nil => rfl
    | cons b ws => exact List.takeWhile_cons_of_neg (by simp [hws b rfl])
  have hhost : ∀ a b c d, Command.hostAnd a b c d [] = ofOctets a b c d := by
    intro a b c d
    rw [Command.hostAnd, List.append_nil]
    exact dotDec2IP_dotted a b c d
  by_cases hc : c = .triggerDVSend
  · subst hc
    exact controlBody_trigger hws
  · rw [controlBody_text h hc, hnil]
    cases c with
    | triggerDVSend => exact absurd rfl hc
    | releaseNATItem a b c d => rw [Command.bodyAnd, hhost, Command.body]
    | portValueChange port value =>
      rw [Command.bodyAnd, appendDigits_nil, clamp_eq h.2.1 (by have := h.2.2; omega), Command.body]
    | addHost port a b c d => rw [Command.bodyAnd, hhost, Command.body]

end Control

section Leftovers

variable {c : Command} {ws es : List UInt8} {src dst : IPAddr} {sh : Shared} {inPort : ℤ}
  {R : Router} {port value : ℤ} {a b c' d : UInt8}

def Trailing (es : List UInt8) : Prop := es.length ≤ headerSize ∧ ∀ b ∈ es, isDigit b = true

/-- What a call leaves of the router and of the static members, and what it returns. -/
def Outcome.result (o : Outcome) : Router × Shared × Option ℤ := (o.router, o.shared, o.ret)

/-- The outcome is the same whatever lies behind the payload. -/
def Command.ReadsPayloadOnly (c : Command) (R : Router) (sh : Shared) (inPort : ℤ)
    (src dst : IPAddr) : Prop :=
  ∀ payload payload', (R.receive sh inPort (c.packet src dst payload)).map Outcome.result =
    (R.receive sh inPort (c.packet src dst payload')).map Outcome.result

/-- Digits behind the payload make no difference: not to a value that has reached the bounds of an
`int`, to the release of addresses that are not there, or to the entries of hosts that are there
already. -/
def Command.Unaffected (R : Router) (sh : Shared) : Command → Prop
  | .triggerDVSend => False
  | .releaseNATItem a b c d =>
    ∀ es, Trailing es → R.host2ExternIP (Command.hostAnd a b c d es) = none
  | .portValueChange _ value => value = -2 ^ 31 ∨ value = 2 ^ 31 - 1
  | .addHost port a b c d => ∀ es, Trailing es →
    R.host2Port (Command.hostAnd a b c d es) = port ∧
    sh.host2Router (Command.hostAnd a b c d es) = R.routerID

theorem exists_leftover (h : c.WellFormed) (ws : List UInt8) (hws : ws.length = headerSize) :
    ∃ payload, c.leftover payload = ws := by
  have hlen := Command.length_text_le h
  have hsize : headerSize = 12 := rfl
  have hmax : maxPayloadSize = 16372 := rfl
  refine ⟨⟨List.replicate c.text.length 0 ++ (ws ++
    List.replicate (maxPayloadSize - c.text.length - headerSize) 0), ?_⟩, ?_⟩
  · simp only [List.length_append, List.length_replicate]
    omega
  · rw [Command.leftover, List.drop_left' List.length_replicate, List.take_left' hws]

private theorem exists_trailing (h : c.WellFormed) (hes : Trailing es) :
    ∃ payload, (c.leftover payload).takeWhile isDigit = es := by
  have hlen : (es ++ List.replicate (headerSize - es.length) 0x20).length = headerSize := by
    rw [List.length_append, List.length_replicate]
    exact Nat.add_sub_cancel' hes.1
  obtain ⟨payload, hpayload⟩ := exists_leftover h _ hlen
  refine ⟨payload, ?_⟩
  rw [hpayload]
  refine (takeWhile_run hes.2 ?_).1
  intro b hb
  rw [List.eq_of_mem_replicate (List.mem_of_mem_head? hb)]
  decide

private theorem trailing_leftover (c : Command) (payload : Buffer maxPayloadSize) :
    Trailing ((c.leftover payload).takeWhile isDigit) := by
  refine ⟨?_, fun b hb ↦ List.mem_takeWhile_imp hb⟩
  calc ((c.leftover payload).takeWhile isDigit).length
      ≤ (c.leftover payload).length := (List.takeWhile_sublist _).length_le
    _ ≤ headerSize := List.length_take_le _ _

/-- What counts of the bytes behind the payload is the digits. -/
theorem readsPayloadOnly_iff (h : c.WellFormed) (hc : c ≠ .triggerDVSend) :
    c.ReadsPayloadOnly R sh inPort src dst ↔ ∀ es es', Trailing es → Trailing es' →
      (R.router sh inPort ⟨src, dst, c.bodyAnd es⟩).result =
        (R.router sh inPort ⟨src, dst, c.bodyAnd es'⟩).result := by
  have hread : ∀ payload, (R.receive sh inPort (c.packet src dst payload)).map Outcome.result =
      some (R.router sh inPort
        ⟨src, dst, c.bodyAnd ((c.leftover payload).takeWhile isDigit)⟩).result := by
    intro payload
    rw [receive_packet h, controlBody_text h hc]
    rfl
  constructor
  · intro hsame es es' hes hes'
    obtain ⟨payload, hpayload⟩ := exists_trailing h hes
    obtain ⟨payload', hpayload'⟩ := exists_trailing h hes'
    have heq := hsame payload payload'
    rw [hread, hread, hpayload, hpayload'] at heq
    exact Option.some.inj heq
  · intro hsame payload payload'
    rw [hread, hread, hsame _ _ (trailing_leftover c payload) (trailing_leftover c payload')]

private theorem trailing_nil : Trailing [] := ⟨Nat.zero_le _, List.forall_mem_nil _⟩

private theorem trailing_digit {n : ℕ} (hn : n < 10) : Trailing [digit n] := by
  refine ⟨Nat.le_add_left 1 11, fun b hb ↦ ?_⟩
  rw [List.mem_singleton.mp hb]
  exact isDigit_digit hn

private theorem hostAnd_digit (a b c d : UInt8) {n : ℕ} (hn : n < 10) :
    Command.hostAnd a b c d [digit n] =
      ofOctets 0 a b c <<< 8 ||| BitVec.ofNat 32 (10 * d.toNat + n) := by
  have hd := d.toNat_lt
  have hne : decimal d.toNat ++ [digit n] ≠ [] := by simp
  have hds : ∀ b ∈ decimal d.toNat ++ [digit n], isDigit b = true := by
    intro b hb
    exact (List.mem_append.mp hb).elim (isDigit_decimal _ b) ((trailing_digit hn).2 b)
  have hvalue : ofDecimal (decimal d.toNat ++ [digit n]) = 10 * d.toNat + n := by
    rw [ofDecimal_append_singleton, ofDecimal_decimal, digitValue_digit hn]
  have hread := dotDec2IP_digits a b c hne hds noDigit_nil
  rw [List.append_nil, atoi_digits hne hds (by omega), hvalue] at hread
  rw [Command.hostAnd, hread, BitVec.ofInt_natCast]

private theorem exists_hostAnd_ne (a b c d : UInt8) (ip : IPAddr) :
    ∃ es, Trailing es ∧ Command.hostAnd a b c d es ≠ ip := by
  have hbit : ∀ n < 10, (Command.hostAnd a b c d [digit n]).getLsbD 0 = decide (n % 2 = 1) := by
    intro n hn
    have hodd : (10 * d.toNat + n) % 2 = n % 2 := by omega
    rw [hostAnd_digit a b c d hn, BitVec.getLsbD_or, BitVec.getLsbD_ofNat, BitVec.getLsbD_shiftLeft]
    simp [hodd]
  by_cases hip : ip.getLsbD 0 = true
  · refine ⟨[digit 0], trailing_digit (by decide), ?_⟩
    rintro rfl
    rw [hbit 0 (by decide)] at hip
    exact absurd hip (by decide)
  · refine ⟨[digit 1], trailing_digit (by decide), ?_⟩
    rintro rfl
    exact hip (hbit 1 (by decide))

/-- An entry that is set at one of several places makes no difference to which of them only if it
was set at all of them. -/
theorem update_same_iff {α ι β : Type} [DecidableEq α] {f : α → β} {v : β} {g : ι → α}
    {P : ι → Prop} (hne : ∀ a, ∃ x, P x ∧ g x ≠ a) :
    (∀ x y, P x → P y → Function.update f (g x) v = Function.update f (g y) v) ↔
      ∀ x, P x → f (g x) = v := by
  constructor
  · intro hsame x hx
    obtain ⟨y, hy, hyx⟩ := hne (g x)
    have hentry := congrFun (hsame x y hx hy) (g x)
    rw [Function.update_self, Function.update_of_ne hyx.symm] at hentry
    exact hentry.symm
  · intro hall x y hx hy
    rw [← hall x hx, Function.update_eq_self, hall x hx, ← hall y hy, Function.update_eq_self]

private theorem releaseNATItem_host2ExternIP (R : Router) (ip : IPAddr) :
    (R.releaseNATItem ip).host2ExternIP = Function.update R.host2ExternIP ip none := by
  cases h : R.host2ExternIP ip with
  | none =>
    have hself := Function.update_eq_self ip R.host2ExternIP
    rw [h] at hself
    rw [Router.releaseNATItem, h]
    exact hself.symm
  | some externalIP => rw [Router.releaseNATItem, h]

private theorem releaseNATItem_of_none {ip : IPAddr} (h : R.host2ExternIP ip = none) :
    R.releaseNATItem ip = R := by
  rw [Router.releaseNATItem, h]

private theorem onPortValueChange_portLen (R : Router) (sh : Shared) (port value : ℤ) :
    (R.onPortValueChange sh port value).1.portLen port = some value := by
  rw [Router.onPortValueChange]
  split_ifs <;> exact Function.update_self port (some value) R.portLen

private theorem releaseNATItem_unaffected (a b c d : UInt8) :
    Command.ReadsPayloadOnly (.releaseNATItem a b c d) R sh inPort src dst ↔
      Command.Unaffected R sh (.releaseNATItem a b c d) := by
  have hwf : (Command.releaseNATItem a b c d).WellFormed := trivial
  rw [readsPayloadOnly_iff hwf (by simp), Command.Unaffected,
    ← update_same_iff (exists_hostAnd_ne a b c d)]
  constructor
  · intro hsame es es' hes hes'
    have hrouter := congrArg Prod.fst (hsame es es' hes hes')
    have hmap := congrArg Router.host2ExternIP hrouter
    rwa [← releaseNATItem_host2ExternIP, ← releaseNATItem_host2ExternIP]
  · intro hsame es es' hes hes'
    have hnone := (update_same_iff (exists_hostAnd_ne a b c d)).mp hsame
    have hrelease : ∀ es, Trailing es →
        R.releaseNATItem (Command.hostAnd a b c d es) = R :=
      fun es hes ↦ releaseNATItem_of_none (hnone es hes)
    simp only [Command.bodyAnd, Router.router, Outcome.result, hrelease es hes, hrelease es' hes']

private theorem result_addHost (R : Router) (sh : Shared) (inPort : ℤ) (src dst : IPAddr) (port : ℤ)
    (ip : IPAddr) : (R.router sh inPort ⟨src, dst, .addHost port ip⟩).result =
      ({ R with host2Port := Function.update R.host2Port ip port },
        { sh with host2Router := Function.update sh.host2Router ip R.routerID }, some (-1)) := rfl

private theorem addHost_unaffected (h : (Command.addHost port a b c' d).WellFormed) :
    Command.ReadsPayloadOnly (.addHost port a b c' d) R sh inPort src dst ↔
      Command.Unaffected R sh (.addHost port a b c' d) := by
  have hne := exists_hostAnd_ne a b c' d
  rw [readsPayloadOnly_iff h (by simp), Command.Unaffected]
  simp only [Command.bodyAnd, result_addHost]
  constructor
  · intro hsame
    have hentries : ∀ es es', Trailing es → Trailing es' →
        Function.update R.host2Port (Command.hostAnd a b c' d es) port =
            Function.update R.host2Port (Command.hostAnd a b c' d es') port ∧
          Function.update sh.host2Router (Command.hostAnd a b c' d es) R.routerID =
            Function.update sh.host2Router (Command.hostAnd a b c' d es') R.routerID := by
      intro es es' hes hes'
      obtain ⟨hrouter, hrest⟩ := Prod.mk.inj (hsame es es' hes hes')
      obtain ⟨hshared, -⟩ := Prod.mk.inj hrest
      have hports := congrArg Router.host2Port hrouter
      have hrouters := congrArg Shared.host2Router hshared
      dsimp only at hports hrouters
      exact ⟨hports, hrouters⟩
    intro es hes
    exact ⟨(update_same_iff hne).mp (fun x y hx hy ↦ (hentries x y hx hy).1) es hes,
      (update_same_iff hne).mp (fun x y hx hy ↦ (hentries x y hx hy).2) es hes⟩
  · intro hall es es' hes hes'
    have hports := (update_same_iff hne).mpr (fun es hes ↦ (hall es hes).1) es es' hes hes'
    have hrouters := (update_same_iff hne).mpr (fun es hes ↦ (hall es hes).2) es es' hes hes'
    rw [hports, hrouters]

/-- A value stays as it is only at the bounds of an `int`. -/
theorem clamp_appendDigits_iff (hvalue : -2 ^ 31 ≤ value ∧ value < 2 ^ 31) :
    (∀ es, Trailing es → clamp (-2 ^ 31) (2 ^ 31 - 1) (appendDigits es value) = value) ↔
      value = -2 ^ 31 ∨ value = 2 ^ 31 - 1 := by
  constructor
  · intro hall
    have hzero := hall [digit 0] (trailing_digit (by decide))
    have hone := hall [digit 1] (trailing_digit (by decide))
    rw [appendDigits_digit (by decide)] at hzero hone
    unfold clamp at hzero hone
    split_ifs at hzero hone <;> omega
  · rintro (rfl | rfl) es -
    · have hle := appendDigits_le (v := -2 ^ 31) (by decide) es
      unfold clamp
      split_ifs <;> omega
    · have hle := le_appendDigits (v := 2 ^ 31 - 1) (by decide) es
      unfold clamp
      split_ifs <;> omega

private theorem portValueChange_unaffected (h : (Command.portValueChange port value).WellFormed) :
    Command.ReadsPayloadOnly (.portValueChange port value) R sh inPort src dst ↔
      Command.Unaffected R sh (.portValueChange port value) := by
  have hvalue : -2 ^ 31 ≤ value ∧ value < 2 ^ 31 := h.2
  have hself : clamp (-2 ^ 31) (2 ^ 31 - 1) (appendDigits [] value) = value := by
    rw [appendDigits_nil, clamp_eq hvalue.1 (by omega)]
  rw [readsPayloadOnly_iff h (by simp), Command.Unaffected,
    ← clamp_appendDigits_iff hvalue]
  constructor
  · intro hsame es hes
    have hrouter := congrArg Prod.fst (hsame es [] hes trailing_nil)
    have hlen := congrFun (congrArg Router.portLen hrouter) port
    simp only [Command.bodyAnd, Router.router, Outcome.result, onPortValueChange_portLen, hself,
      Option.some.injEq] at hlen
    exact hlen
  · intro hall es es' hes hes'
    simp only [Command.bodyAnd, hall es hes, hall es' hes']

/-- The trigger becomes another command where a digit follows it. -/
theorem trigger_affected (R : Router) (sh : Shared) (inPort : ℤ) (src dst : IPAddr) :
    ¬ Command.triggerDVSend.ReadsPayloadOnly R sh inPort src dst := by
  have hwf : Command.triggerDVSend.WellFormed := trivial
  obtain ⟨payload, hpayload⟩ := exists_leftover hwf (List.replicate 12 0x20) rfl
  -- 1 1.1.1.1
  obtain ⟨payload', hpayload'⟩ := exists_leftover hwf
    [0x31, 0x20, 0x31, 0x2e, 0x31, 0x2e, 0x31, 0x2e, 0x31, 0x20, 0x20, 0x20] rfl
  have htrigger : controlBody (Command.triggerDVSend.text ++ List.replicate 12 0x20) =
      some .triggerDVSend := by decide
  have hrelease : controlBody (Command.triggerDVSend.text ++
      [0x31, 0x20, 0x31, 0x2e, 0x31, 0x2e, 0x31, 0x2e, 0x31, 0x20, 0x20, 0x20]) =
      some (.releaseNATItem 0x01010101) := by decide
  intro hsame
  have heq := hsame payload payload'
  rw [receive_packet hwf, receive_packet hwf, hpayload, hpayload', htrigger, hrelease] at heq
  obtain ⟨-, hrest⟩ := Prod.mk.inj (Option.some.inj heq)
  obtain ⟨-, hret⟩ := Prod.mk.inj hrest
  exact absurd (Option.some.inj hret) (by decide)

/-- The outcome of a command is the same whatever lies behind the payload exactly if the digits
that may lie there make no difference to it; and where no digit lies there, what the command says is
done. -/
theorem command_payload (R : Router) (sh : Shared) (inPort : ℤ) (src dst : IPAddr)
    (h : c.WellFormed) :
    (c.ReadsPayloadOnly R sh inPort src dst ↔ c.Unaffected R sh) ∧
    ∀ payload, NoDigit (c.leftover payload) →
      R.receive sh inPort (c.packet src dst payload) =
        some (R.router sh inPort ⟨src, dst, c.body⟩) := by
  refine ⟨?_, ?_⟩
  · cases c with
    | triggerDVSend => exact iff_of_false (trigger_affected R sh inPort src dst) not_false
    | releaseNATItem a b c d => exact releaseNATItem_unaffected a b c d
    | portValueChange port value => exact portValueChange_unaffected h
    | addHost port a b c d => exact addHost_unaffected h
  · intro payload hpayload
    rw [receive_packet h, controlBody_noDigit h hpayload]
    rfl

/-- The length of the link at port 2 becomes 5. -/
theorem command_payload_five :
    ((Command.portValueChange 2 5).ReadsPayloadOnly (.init 1 0 0 0 []) noShared 1 0 0 ↔
      (Command.portValueChange 2 5).Unaffected (.init 1 0 0 0 []) noShared) ∧
    ∀ payload, NoDigit ((Command.portValueChange 2 5).leftover payload) →
      (Router.init 1 0 0 0 []).receive noShared 1
        ((Command.portValueChange 2 5).packet 0 0 payload) =
        some ((Router.init 1 0 0 0 []).router noShared 1
          ⟨0, 0, (Command.portValueChange 2 5).body⟩) :=
  command_payload _ _ _ _ _ (by decide)

/-- A digit behind the 5 makes another length of it. -/
theorem five_affected :
    ¬ (Command.portValueChange 2 5).ReadsPayloadOnly (.init 1 0 0 0 []) noShared 1 0 0 := by
  have hwf : (Command.portValueChange 2 5).WellFormed := by decide
  rw [portValueChange_unaffected hwf]
  rintro (h | h) <;> exact absurd h (by decide)

end Leftovers

end NetworkingLabs.Routing
