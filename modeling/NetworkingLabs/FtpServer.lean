import NetworkingLabs.FtpDatagram
import Mathlib.Data.List.TakeWhile

/-!
# The FTP server

The constructors of the datagrams, the files and the listing, the check of the credentials and
the loop that serves one datagram after the other.
-/
namespace NetworkingLabs.Ftp

section Datagrams

def openConnRequest : UInt8 := 0xa1
def openConnReply : UInt8 := 0xa2
def authRequest : UInt8 := 0xa3
def authReply : UInt8 := 0xa4
def listRequest : UInt8 := 0xa5
def listReply : UInt8 := 0xa6
def getRequest : UInt8 := 0xa7
def getReply : UInt8 := 0xa8
def putRequest : UInt8 := 0xa9
def putReply : UInt8 := 0xaa
def quitRequest : UInt8 := 0xab
def quitReply : UInt8 := 0xac
def fileData : UInt8 := 0xff

def cString (mem : List UInt8) : List UInt8 := mem.takeWhile (· ≠ 0)

namespace Datagram

/-- `datagram(type, status, const char*)`: the string goes with its zero. -/
def ofString (type status : UInt8) (mem : List UInt8) : Datagram :=
  ⟨type, status, cString mem ++ [0]⟩

def openConnRequest : Datagram := ⟨Ftp.openConnRequest, 0, []⟩
def openConnReply (status : UInt8) : Datagram := ⟨Ftp.openConnReply, status, []⟩
def authRequest (auth : List UInt8) : Datagram := ofString Ftp.authRequest 0 auth
def authReply (pass : Bool) : Datagram := ⟨Ftp.authReply, pass.toUInt8, []⟩
def listRequest : Datagram := ⟨Ftp.listRequest, 0, []⟩
def listReply (list : List UInt8) : Datagram := ofString Ftp.listReply 0 list
def quitRequest : Datagram := ⟨Ftp.quitRequest, 0, []⟩
def quitReply : Datagram := ⟨Ftp.quitReply, 0, []⟩
def getRequest (filename : List UInt8) : Datagram := ofString Ftp.getRequest 0 filename
def getReply (status : Bool) : Datagram := ⟨Ftp.getReply, status.toUInt8, []⟩
def putRequest (filename : List UInt8) : Datagram := ofString Ftp.putRequest 0 filename
def putReply : Datagram := ⟨Ftp.putReply, 0, []⟩
def fileData (fileBuf : List UInt8) : Datagram := ⟨Ftp.fileData, 0, fileBuf⟩

end Datagram

end Datagrams

section Files

def fileBufSize : ℕ := 2 ^ 21

/-- The loop of `upload` for so many turns, on what is left of an open file, with `fileBuf` and
`fileLength`; `none` has not ended by then. -/
def uploadLoop : ℕ → List UInt8 → List UInt8 → ℕ → Option (List UInt8 × ℕ)
  | 0, _, _, _ => none
  | turns + 1, rest, fileBuf, fileLength =>
    let ret := min (fileBufSize - fileLength) rest.length
    let fileBuf := rest.take ret ++ fileBuf.drop ret
    -- the end of the file is noticed when it is met before all that was asked for is read
    if ret < fileBufSize - fileLength then some (fileBuf, fileLength + ret)
    else uploadLoop turns (rest.drop ret) fileBuf (fileLength + ret)

/-- What `upload` leaves of a file in `fileBuf[0..fileLength]`; `none` loops for ever. -/
def upload (file : List UInt8) : Option (List UInt8) := do
  let (fileBuf, fileLength) ← uploadLoop 1 file [] 0
  some (fileBuf.take fileLength)

/-- `getFileList`, with what `ls` prints, or `none` where `popen` fails. -/
def getFileList (buff : Buffer 4096) (listing : Option (List UInt8)) : Buffer 4096 :=
  match listing with
  | none => buff
  | some listing => buff.fill (listing.take 2048)

end Files

section Server

structure Surroundings where
  disk : List UInt8 → Option (List UInt8)  -- what fopen finds under a path
  listing : Option (List UInt8)
  after : List UInt8  -- the memory that follows the payload

/-- The string that a payload starts, also where it has no zero of its own. -/
def Surroundings.string (e : Surroundings) (payload : List UInt8) : List UInt8 :=
  cString (payload ++ e.after)

inductive Action
  | list
  | send (filepath contents : List UInt8)
  | write (filepath contents : List UInt8)
  deriving DecidableEq

structure Turn (σ : Type) where
  party : σ
  sends : List Datagram
  actions : List Action

inductive ServerPhase
  | request  -- at the top of the loop
  | file (filepath : List UInt8)  -- behind put_reply
  | stopped
  | lost  -- past the end of some memory, or in a loop that never ends
  deriving DecidableEq

structure Server where
  waitTimesLim : ℕ
  authPass : Bool
  iuid : List UInt8
  ipass : List UInt8
  buff : Buffer 4096
  initDue : Bool  -- initConn() comes once the reply is written
  phase : ServerPhase
  deriving DecidableEq

def isSpace (b : UInt8) : Bool := b = 0x20 || (0x09 ≤ b && b ≤ 0x0d)

/-- `sstr >> old`: the string afterwards and what is left of `sstr`. -/
def extract (old sstr : List UInt8) : List UInt8 × List UInt8 :=
  let sstr := sstr.dropWhile isSpace
  let word := sstr.takeWhile (!isSpace ·)
  if word = [] then (old, []) else (word, sstr.dropWhile (!isSpace ·))

def uid : List UInt8 := [0x75, 0x73, 0x65, 0x72]

def pass : List UInt8 := [0x31, 0x32, 0x33, 0x31, 0x32, 0x33]

namespace Server

def check (s : Server) (auth : List UInt8) : Server :=
  let (iuid, sstr) := extract s.iuid auth
  let (ipass, _) := extract s.ipass sstr
  { s with iuid := iuid, ipass := ipass, authPass := cString iuid = uid && cString ipass = pass }

/-- The end of a turn and `if(! --waitTimesLim) break;` of the next one. -/
def loop (s : Server) : Server :=
  { s with
    waitTimesLim := s.waitTimesLim - 1
    phase := if s.waitTimesLim - 1 = 0 then .stopped else .request }

def initConn (s : Server) : Server := { s with authPass := false, initDue := false }

/-- A turn of the loop, or its second half behind `put_reply`, on the datagram just read. -/
def handle (e : Surroundings) (s : Server) (rev : Datagram) : Turn Server :=
  match s.phase with
  | .stopped | .lost => ⟨s, [], []⟩
  | .file filepath => ⟨s.loop, [], [.write filepath rev.payload]⟩
  | .request =>
    if rev.type = openConnRequest then
      ⟨{ s.loop with initDue := true }, [.openConnReply 1], []⟩
    else if rev.type = authRequest then
      let s := s.check (e.string rev.payload)
      ⟨s.loop, [.authReply s.authPass], []⟩
    else if rev.type = listRequest then
      let s := { s with buff := getFileList s.buff e.listing }
      if (0 : UInt8) ∈ s.buff.bytes then ⟨s.loop, [.listReply s.buff.bytes], [.list]⟩
      else ⟨{ s with phase := .lost }, [], [.list]⟩
    else if rev.type = quitRequest then
      ⟨{ s with phase := .stopped }, [.quitReply], []⟩
    else if rev.type = getRequest then
      let filepath := e.string rev.payload
      match (e.disk filepath).map upload with
      | none => ⟨s.loop, [.getReply false], []⟩
      | some none => ⟨{ s with phase := .lost }, [], []⟩
      | some (some contents) =>
        ⟨s.loop, [.getReply true, .fileData contents], [.send filepath contents]⟩
    else if rev.type = putRequest then
      ⟨{ s with phase := .file (e.string rev.payload) }, [.putReply], []⟩
    else ⟨s.loop, [], []⟩

/-- The server at the top of its loop for the first time, `waitTimesLim` being 1e5 before. -/
def start (buff : Buffer 4096) : Server where
  waitTimesLim := 99999
  authPass := false
  iuid := []
  ipass := []
  buff := buff
  initDue := false
  phase := .request

end Server

end Server

section Strings

variable {mem rest : List UInt8}

theorem cString_eq_self (h : (0 : UInt8) ∉ mem) : cString mem = mem := by
  refine List.takeWhile_eq_self_iff.mpr ?_
  intro b hb
  exact decide_eq_true fun h0 ↦ h (h0 ▸ hb)

theorem zero_not_mem_cString (mem : List UInt8) : (0 : UInt8) ∉ cString mem := by
  intro h
  exact absurd (List.mem_takeWhile_imp h) (by decide)

theorem length_cString_lt : (cString mem).length < mem.length ↔ (0 : UInt8) ∈ mem := by
  have hprefix : cString mem <+: mem := List.takeWhile_prefix _
  constructor
  · intro h
    by_contra hzero
    rw [cString_eq_self hzero] at h
    exact absurd h (Nat.lt_irrefl _)
  · intro hzero
    refine Nat.lt_of_le_of_ne hprefix.length_le fun hlen ↦ ?_
    rw [← hprefix.eq_of_length hlen] at hzero
    exact zero_not_mem_cString mem hzero

/-- A zero ends the string, whatever comes behind. -/
theorem cString_append_of_mem (h : (0 : UInt8) ∈ mem) : cString (mem ++ rest) = cString mem := by
  have hlt := length_cString_lt.mpr h
  rw [cString] at hlt
  rw [cString, List.takeWhile_append, if_neg (Nat.ne_of_lt hlt), cString]

end Strings

section Files

variable {file fileBuf : List UInt8} {turns : ℕ}

private theorem uploadLoop_small (h : file.length < fileBufSize) :
    uploadLoop (turns + 1) file [] 0 = some (file, file.length) := by
  have hret : min fileBufSize file.length = file.length := Nat.min_eq_right (Nat.le_of_lt h)
  simp [uploadLoop, hret, h]

/-- Once `fileBuf` is full, the end of the file is never noticed. -/
theorem uploadLoop_full (rest fileBuf : List UInt8) :
    uploadLoop turns rest fileBuf fileBufSize = none := by
  induction turns generalizing rest fileBuf with
  | zero => rfl
  | succ turns ih => simpa [uploadLoop] using ih rest fileBuf

private theorem uploadLoop_large (h : fileBufSize ≤ file.length) :
    uploadLoop turns file fileBuf 0 = none := by
  cases turns with
  | zero => rfl
  | succ turns =>
    have hret : min fileBufSize file.length = fileBufSize := Nat.min_eq_left h
    simp [uploadLoop, hret, uploadLoop_full]

theorem upload_small (h : file.length < fileBufSize) : upload file = some file := by
  simp [upload, uploadLoop_small h]

theorem upload_large (h : fileBufSize ≤ file.length) : upload file = none := by
  simp [upload, uploadLoop_large h]

end Files

section Handle

variable {e : Surroundings} {s : Server} {rev : Datagram}

namespace Server

theorem handle_file {filepath : List UInt8} (hs : s.phase = .file filepath) :
    s.handle e rev = ⟨s.loop, [], [.write filepath rev.payload]⟩ := by
  simp [handle, hs]

theorem handle_openConnRequest (hs : s.phase = .request) (hrev : rev.type = openConnRequest) :
    s.handle e rev = ⟨{ s.loop with initDue := true }, [.openConnReply 1], []⟩ := by
  simp [handle, hs, hrev]

theorem handle_authRequest (hs : s.phase = .request) (hrev : rev.type = authRequest) :
    s.handle e rev = ⟨(s.check (e.string rev.payload)).loop,
      [.authReply (s.check (e.string rev.payload)).authPass], []⟩ := by
  simp +decide [handle, hs, hrev]

theorem handle_listRequest (hs : s.phase = .request) (hrev : rev.type = listRequest) :
    s.handle e rev =
      if (0 : UInt8) ∈ (getFileList s.buff e.listing).bytes then
        ⟨{ s.loop with buff := getFileList s.buff e.listing },
          [.listReply (getFileList s.buff e.listing).bytes], [.list]⟩
      else ⟨{ s with buff := getFileList s.buff e.listing, phase := .lost }, [], [.list]⟩ := by
  simp +decide [handle, hs, hrev, loop]

theorem handle_quitRequest (hs : s.phase = .request) (hrev : rev.type = quitRequest) :
    s.handle e rev = ⟨{ s with phase := .stopped }, [.quitReply], []⟩ := by
  simp +decide [handle, hs, hrev]

theorem handle_getRequest (hs : s.phase = .request) (hrev : rev.type = getRequest) :
    s.handle e rev = match (e.disk (e.string rev.payload)).map upload with
      | none => ⟨s.loop, [.getReply false], []⟩
      | some none => ⟨{ s with phase := .lost }, [], []⟩
      | some (some contents) => ⟨s.loop, [.getReply true, .fileData contents],
          [.send (e.string rev.payload) contents]⟩ := by
  simp +decide only [handle, hs, hrev, if_true, if_false]

theorem handle_putRequest (hs : s.phase = .request) (hrev : rev.type = putRequest) :
    s.handle e rev =
      ⟨{ s with phase := .file (e.string rev.payload) }, [.putReply], []⟩ := by
  simp +decide [handle, hs, hrev]

/-- Besides where the server stands, a datagram changes one thing at most. -/
theorem handle_party (e : Surroundings) (s : Server) (rev : Datagram) :
    (s.handle e rev).party =
      { (if s.phase ≠ .request then s
        else if rev.type = openConnRequest then { s with initDue := true }
        else if rev.type = authRequest then s.check (e.string rev.payload)
        else if rev.type = listRequest then { s with buff := getFileList s.buff e.listing }
        else s) with
        waitTimesLim := (s.handle e rev).party.waitTimesLim
        phase := (s.handle e rev).party.phase } := by
  by_cases hs : s.phase = .request
  · simp only [handle, hs, ne_eq, not_true, if_false]
    split_ifs
    · rfl
    · rfl
    · rfl
    · rfl
    · rfl
    · cases (e.disk (e.string rev.payload)).map upload with
      | none => rfl
      | some file => cases file <;> rfl
    · rfl
    · rfl
  · rw [if_pos hs, handle]
    split
    · rfl
    · rfl
    · rfl
    · contradiction

end Server

theorem fits_bare {d : Datagram} (h : d.payload = []) : d.Fits := by
  have hfits : 12 + 0 ≤ 2 ^ 22 := by omega
  rw [Datagram.Fits, h]
  exact hfits

theorem fits_fileData {contents : List UInt8} (h : contents.length < fileBufSize) :
    (Datagram.fileData contents).Fits := by
  have hsmall : contents.length < 2 ^ 21 := h
  have hfits : 12 + contents.length ≤ 2 ^ 22 := by omega
  exact hfits

private theorem upload_eq_some {file contents : List UInt8} (h : upload file = some contents) :
    contents.length < fileBufSize := by
  rcases Nat.lt_or_ge file.length fileBufSize with hsmall | hlarge
  · rw [upload_small hsmall] at h
    cases h
    exact hsmall
  · rw [upload_large hlarge] at h
    cases h

def FitsString (mem : List UInt8) : Prop :=
  headerSize.toNat + ((cString mem).length + 1) ≤ buffSize

instance (mem : List UInt8) : Decidable (FitsString mem) := inferInstanceAs (Decidable (_ ≤ _))

theorem fitsString_iff {mem : List UInt8} :
    FitsString mem ↔ 12 + ((cString mem).length + 1) ≤ 2 ^ 22 := Iff.rfl

theorem fits_ofString {type status : UInt8} {mem : List UInt8} :
    (Datagram.ofString type status mem).Fits ↔ FitsString mem := by
  rw [Datagram.Fits, FitsString, Datagram.ofString, List.length_append, List.length_singleton]

private theorem fits_listReply (buff : Buffer 4096) : (Datagram.listReply buff.bytes).Fits := by
  have hlen : (cString buff.bytes).length ≤ buff.bytes.length :=
    (List.takeWhile_sublist _).length_le
  have hsize := buff.size
  rw [Datagram.listReply, fits_ofString, fitsString_iff]
  omega

structure Sendable (ds : List Datagram) : Prop where
  few : ds.length ≤ 2
  fits : ∀ d ∈ ds, d.Fits

theorem Sendable.nil : Sendable [] := ⟨Nat.zero_le 2, fun _ hd ↦ absurd hd List.not_mem_nil⟩

theorem Sendable.single {d : Datagram} (hd : d.Fits) : Sendable [d] :=
  ⟨Nat.le_succ 1, fun _ hd' ↦ List.mem_singleton.mp hd' ▸ hd⟩

theorem Sendable.pair {d d' : Datagram} (hd : d.Fits) (hd' : d'.Fits) : Sendable [d, d'] where
  few := Nat.le_refl 2
  fits := by
    intro d₀ hd₀
    rcases List.mem_pair.mp hd₀ with rfl | rfl
    · exact hd
    · exact hd'

/-- Whatever the server reads, it can send the replies. -/
theorem handle_sendable (e : Surroundings) (s : Server) (rev : Datagram) :
    Sendable (s.handle e rev).sends := by
  cases hs : s.phase with
  | stopped => simpa only [Server.handle, hs] using .nil
  | lost => simpa only [Server.handle, hs] using .nil
  | file filepath => simpa only [Server.handle, hs] using .nil
  | request =>
    simp only [Server.handle, hs]
    split_ifs
    · exact .single (fits_bare rfl)
    · exact .single (fits_bare rfl)
    · exact .single (fits_listReply _)
    · exact .nil
    · exact .single (fits_bare rfl)
    · cases hfile : (e.disk (e.string rev.payload)).map upload with
      | none => exact .single (fits_bare rfl)
      | some file =>
        cases file with
        | none => exact .nil
        | some contents =>
          obtain ⟨file, -, hupload⟩ := Option.map_eq_some_iff.mp hfile
          exact .pair (fits_bare rfl) (fits_fileData (upload_eq_some hupload))
    · exact .single (fits_bare rfl)
    · exact .nil

end Handle

end NetworkingLabs.Ftp
