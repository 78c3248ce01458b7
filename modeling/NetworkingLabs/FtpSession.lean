import NetworkingLabs.FtpDialogue
import NetworkingLabs.TransitionSystem

/-!
# Sessions of the FTP client and server

Both programs and the two directions of their connection, down to the single calls of `write`
and `read`. As long as every request fits in the client's `bbuff` and the listing in the server's
memory ends with a zero, the two programs stay in step and transfer files exactly.
-/
namespace NetworkingLabs.Ftp

section Machine

structure Session where
  parties : Parties
  up : Channel  -- to the server
  down : Channel  -- to the client

/-- A command, a call of `write` or `read` that returns so many bytes, or `initConn`. -/
inductive Move
  | command (disk : List UInt8 → Option (List UInt8)) (cmd : Command)
  | clientWrite (b : ℕ)
  | clientRead (b : ℕ)
  | serverWrite (b : ℕ)
  | serverInit
  | serverRead (e : Surroundings) (b : ℕ)

def Move.IsCommand : Move → Prop
  | .command _ _ => True
  | _ => False

def sendAll (c : Channel) : List Datagram → Option Channel
  | [] => some c
  | d :: ds => match writeDgram d with
    | none => none
    | some buf => sendAll (c.send buf) ds

namespace Session

def clientSends (s : Session) (r : Parties × List Datagram) : Session :=
  match sendAll s.up r.2 with
  | none => { s with parties := { r.1 with client := { r.1.client with phase := .lost } } }
  | some up => { s with parties := r.1, up := up }

def serverSends (s : Session) (r : Parties × List Datagram) : Session :=
  match sendAll s.down r.2 with
  | none => { s with parties := { r.1 with server := { r.1.server with phase := .lost } } }
  | some down => { s with parties := r.1, down := down }

/-- What may happen in sessions of fewer than 99999 commands after the first `open`, in which
all files are small enough. A program that writes does nothing else before it is done. -/
def Enabled (s : Session) : Move → Prop
  | .command disk cmd => s.parties.client.phase = .prompt ∧ s.up.outbox = [] ∧
      s.parties.issued + 1 < 99999 ∧ cmd.Small disk
  | .clientWrite b => s.up.CanWrite b
  | .clientRead b => s.parties.client.phase.expected ≠ none ∧ s.up.outbox = [] ∧
      s.down.CanRead dgrams b
  | .serverWrite b => s.down.CanWrite b
  | .serverInit => s.parties.server.initDue = true ∧ s.down.outbox = []
  | .serverRead e b => s.parties.server.phase ≠ .stopped ∧ s.parties.server.phase ≠ .lost ∧
      s.parties.server.initDue = false ∧ s.down.outbox = [] ∧ s.up.CanRead dgrams b ∧
      ∀ d ∈ s.up.arrives dgrams b, d.type = getRequest →
        ∀ file ∈ e.disk (e.string d.payload), file.length < fileBufSize

instance (s : Session) (i : Move) : Decidable (s.Enabled i) := by
  cases i <;> unfold Enabled <;> infer_instance

def next (s : Session) : Move → Session
  | .command disk cmd => s.clientSends (s.parties.command disk cmd)
  | .clientWrite b => { s with up := s.up.write b }
  | .clientRead b =>
    let s' := { s with down := s.down.read dgrams b }
    match s.down.arrives dgrams b with
    | none => s'
    | some reply => s'.clientSends (s.parties.clientTakes reply)
  | .serverWrite b => { s with down := s.down.write b }
  | .serverInit => { s with parties := s.parties.serverInit }
  | .serverRead e b =>
    let s' := { s with up := s.up.read dgrams b }
    match s.up.arrives dgrams b with
    | none => s'
    | some rev => s'.serverSends (s.parties.serverTakes e rev)

def start (buff : Buffer 4096) : Session :=
  ⟨.start buff, ⟨[Datagram.openConnRequest.bytes], [], []⟩, .empty⟩

/-- The words of every request fit in `bbuff`, and a listing that is asked for ends with a
zero. -/
def Modest (s : Session) : Move → Prop
  | .command disk cmd => s.parties.client.Brief disk cmd
  | .serverRead e b => ∀ d ∈ s.up.arrives dgrams b, d.type = listRequest →
      0 ∈ (getFileList s.parties.server.buff e.listing).bytes
  | _ => True

instance (s : Session) (i : Move) : Decidable (s.Modest i) := by
  cases i <;> unfold Modest <;> infer_instance

/-- Both programs are at the top of their loops or have left them, with nothing to write. -/
def Boundary (s : Session) : Prop :=
  (s.parties.client.phase = .prompt ∨ s.parties.client.phase = .stopped) ∧ s.up.outbox = [] ∧
    (s.parties.server.phase = .request ∨ s.parties.server.phase = .stopped) ∧ s.down.outbox = [] ∧
    s.parties.server.initDue = false

instance (s : Session) : Decidable s.Boundary := by
  unfold Boundary
  infer_instance

end Session

def sessions : TransitionSystem Session Move where
  init s := ∃ buff, s = .start buff
  enabled := Session.Enabled
  next := Session.next

instance (s : Session) (i : Move) : Decidable (sessions.enabled s i) :=
  inferInstanceAs (Decidable (s.Enabled i))

/-- Client and server are in step: each reply that was read is the one that was waited for, files
are written as they were read, and at a boundary nothing is on its way. -/
structure Lockstep (s : Session) : Prop where
  client : s.parties.client.phase ≠ .lost
  server : s.parties.server.phase ≠ .lost
  heard : ∀ x ∈ s.parties.heard, x.1 = some x.2
  gets : written s.parties.clientDid <+: sent s.parties.serverDid
  puts : written s.parties.serverDid <+: sent s.parties.clientDid
  unread : s.Boundary → s.up = .empty ∧ s.down = .empty
  auth : s.Boundary → s.parties.client.phase ≠ .stopped →
    s.parties.client.clntAuth = s.parties.server.authPass
  files : s.Boundary → written s.parties.clientDid = sent s.parties.serverDid ∧
    written s.parties.serverDid = sent s.parties.clientDid

end Machine

section Invariant

variable {s : Session} {i : Move} {c : Channel} {ds ms : List Datagram} {st : Stage}
variable {r : Parties × List Datagram} {up down : List Datagram}

theorem sendAll_carries (h : c.Carries dgrams ms) (hds : ∀ d ∈ ds, d.Fits) :
    ∃ c', sendAll c ds = some c' ∧ c'.Carries dgrams (ms ++ ds) ∧
      c'.work ≤ c.work + ds.length * 2 ^ 23 := by
  induction ds generalizing c ms with
  | nil => exact ⟨c, rfl, by rwa [List.append_nil], by simp⟩
  | cons d ds ih =>
    have hd : d.Fits := hds d (.head _)
    have hrest : ∀ d' ∈ ds, d'.Fits := fun d' hd' ↦ hds d' (.tail _ hd')
    obtain ⟨c', hsend, hcarries, hwork⟩ := ih (h.send (F := dgrams) hd) hrest
    have hlen : d.bytes.length ≤ 2 ^ 22 := by
      rw [Datagram.bytes, List.length_append, Header.length_bytes]
      exact hd
    refine ⟨c', ?_, ?_, ?_⟩
    · rw [sendAll, writeDgram_eq hd]
      exact hsend
    · rw [List.append_cons]
      exact hcarries
    · have hone : (c.send d.bytes).work = c.work + 2 * d.bytes.length := c.work_send d.bytes
      have hbytes : dgrams.encode d = d.bytes := rfl
      rw [hbytes, hone] at hwork
      rw [List.length_cons]
      omega

/-- A session is at a stage of the dialogue, and its bytes are those of the datagrams that the
stage has on their way. -/
def Session.At (s : Session) (st : Stage) : Prop :=
  ∃ up down, Tracks st s.parties up down ∧ s.up.Carries dgrams up ∧ s.down.Carries dgrams down

/-- What is left to do before the dialogue is quiet: a datagram that is read counts for more than
the bytes that are sent on account of it. -/
def Session.left (s : Session) (st : Stage) : ℕ :=
  st.rank * (2 ^ 24 + 2) + s.up.work + s.down.work + s.parties.server.initDue.toNat

theorem start_at (buff : Buffer 4096) : (Session.start buff).At (.asked .openConn none) := by
  have hfits : ∀ d ∈ [Datagram.openConnRequest], d.Fits := by decide
  have hup : (Session.start buff).up.Carries dgrams [.openConnRequest] :=
    Channel.Carries.all (F := dgrams) hfits
  have hdown : (Session.start buff).down.Carries dgrams [] :=
    Channel.Carries.all (F := dgrams) fun _ hd ↦ absurd hd List.not_mem_nil
  exact ⟨_, _, start_tracks buff, hup, hdown⟩

private theorem clientSends_at (hup : s.up.Carries dgrams up) (hdown : s.down.Carries dgrams down)
    (hfits : ∀ d ∈ r.2, d.Fits) (h : Tracks st r.1 (up ++ r.2) down) :
    (s.clientSends r).At st ∧ (s.clientSends r).parties = r.1 ∧
      (s.clientSends r).down = s.down ∧
      (s.clientSends r).up.work ≤ s.up.work + r.2.length * 2 ^ 23 := by
  obtain ⟨c, hsend, hcarries, hwork⟩ := sendAll_carries hup hfits
  rw [Session.clientSends, hsend]
  exact ⟨⟨_, _, h, hcarries, hdown⟩, rfl, rfl, hwork⟩

private theorem serverSends_at (hup : s.up.Carries dgrams up) (hdown : s.down.Carries dgrams down)
    (hfits : ∀ d ∈ r.2, d.Fits) (h : Tracks st r.1 up (down ++ r.2)) :
    (s.serverSends r).At st ∧ (s.serverSends r).up = s.up ∧
      (s.serverSends r).down.work ≤ s.down.work + r.2.length * 2 ^ 23 := by
  obtain ⟨c, hsend, hcarries, hwork⟩ := sendAll_carries hdown hfits
  rw [Session.serverSends, hsend]
  exact ⟨⟨_, _, h, hup, hcarries⟩, rfl, hwork⟩

theorem Session.At.clientRead {b : ℕ} (h : s.At st) (hb : s.down.CanRead dgrams b) :
    ∃ st', (s.next (.clientRead b)).At st' ∧ (s.next (.clientRead b)).left st' < s.left st := by
  obtain ⟨up, down, htracks, hup, hdown⟩ := h
  have hread := Channel.work_read hb
  rcases hdown.read hb with ⟨d, down', rfl, harr, hrest⟩ | ⟨harr, hrest⟩
  · obtain ⟨st', htracks', hrank⟩ := htracks.clientTakes
    have hsends := htracks.clientTakes_sendable d
    have hfew := hsends.few
    obtain ⟨hat, hparties, hsame, hwork⟩ := clientSends_at
      (s := { s with down := s.down.read dgrams b }) hup hrest hsends.fits htracks'
    have hinit : (s.parties.clientTakes d).1.server.initDue = s.parties.server.initDue := rfl
    simp only [Session.next, harr]
    refine ⟨st', hat, ?_⟩
    simp only [Session.left, hparties, hsame, hinit] at hwork ⊢
    omega
  · simp only [Session.next, harr]
    refine ⟨st, ⟨up, down, htracks, hup, hrest⟩, ?_⟩
    simp only [Session.left]
    omega

theorem Session.At.serverRead {e : Surroundings} {b : ℕ} (h : s.At st)
    (hi : s.Enabled (.serverRead e b)) (hmodest : s.Modest (.serverRead e b)) :
    ∃ st', (s.next (.serverRead e b)).At st' ∧
      (s.next (.serverRead e b)).left st' < s.left st := by
  obtain ⟨up, down, htracks, hup, hdown⟩ := h
  obtain ⟨-, -, hdue, -, hb, hdisk⟩ := hi
  have hread := Channel.work_read hb
  rcases hup.read hb with ⟨d, up', rfl, harr, hrest⟩ | ⟨harr, hrest⟩
  · obtain ⟨st', htracks', hrank⟩ :=
      htracks.serverTakes (e := e) hdue (hmodest d harr) (hdisk d harr)
    have hsends := handle_sendable e s.parties.server d
    have hfew : (s.parties.serverTakes e d).2.length ≤ 2 := hsends.few
    obtain ⟨hat, hsame, hwork⟩ := serverSends_at
      (s := { s with up := s.up.read dgrams b }) hrest hdown hsends.fits htracks'
    simp only [Session.next, harr]
    refine ⟨st', hat, ?_⟩
    -- initConn may become due
    have hinit := Bool.toNat_le (Session.serverSends { s with up := s.up.read dgrams b }
      (s.parties.serverTakes e d)).parties.server.initDue
    simp only [Session.left, hsame] at hwork ⊢
    omega
  · simp only [Session.next, harr]
    refine ⟨st, ⟨up, down, htracks, hrest, hdown⟩, ?_⟩
    simp only [Session.left]
    omega

/-- A step in which everything fits leads to a stage again, and less is left to do unless it is
a command. -/
theorem Session.At.next (h : s.At st) (hi : s.Enabled i) (hmodest : s.Modest i) :
    ∃ st', (s.next i).At st' ∧ (¬ i.IsCommand → (s.next i).left st' < s.left st) := by
  cases i with
  | command disk cmd =>
    obtain ⟨up, down, htracks, hup, hdown⟩ := h
    obtain ⟨hprompt, -, hissued, hsmall⟩ := hi
    obtain ⟨st', htracks'⟩ := htracks.command hprompt hissued hsmall
    have hsends := Client.command_sendable hmodest
    exact ⟨st', (clientSends_at hup hdown hsends.fits htracks').1, fun hno ↦ absurd trivial hno⟩
  | clientWrite b =>
    obtain ⟨up, down, htracks, hup, hdown⟩ := h
    have hwork : (s.up.write b).work < s.up.work := Channel.work_write hi
    refine ⟨st, ⟨up, down, htracks, hup.write b, hdown⟩, fun _ ↦ ?_⟩
    simp only [Session.left, Session.next]
    omega
  | clientRead b =>
    obtain ⟨st', hat, hless⟩ := h.clientRead hi.2.2
    exact ⟨st', hat, fun _ ↦ hless⟩
  | serverWrite b =>
    obtain ⟨up, down, htracks, hup, hdown⟩ := h
    have hwork : (s.down.write b).work < s.down.work := Channel.work_write hi
    refine ⟨st, ⟨up, down, htracks, hup, hdown.write b⟩, fun _ ↦ ?_⟩
    simp only [Session.left, Session.next]
    omega
  | serverInit =>
    obtain ⟨up, down, htracks, hup, hdown⟩ := h
    refine ⟨st, ⟨up, down, htracks.serverInit hi.1, hup, hdown⟩, fun _ ↦ ?_⟩
    simp only [Session.left, Session.next, Parties.serverInit, Server.initConn, hi.1,
      Bool.toNat_true, Bool.toNat_false]
    omega
  | serverRead e b =>
    obtain ⟨st', hat, hless⟩ := h.serverRead hi hmodest
    exact ⟨st', hat, fun _ ↦ hless⟩

theorem at_of_reachable (h : (sessions.restrict Session.Modest).Reachable s) : ∃ st, s.At st := by
  induction h with
  | init h =>
    obtain ⟨buff, rfl⟩ := h
    exact ⟨_, start_at buff⟩
  | step _ i hi ih =>
    obtain ⟨st, hat⟩ := ih
    obtain ⟨st', hat', -⟩ := hat.next hi.1 hi.2
    exact ⟨st', hat'⟩

/-- Without another command, what is left to do bounds the steps that follow. -/
theorem Session.At.length_le (h : s.At st) {is : List Move}
    (his : (sessions.restrict Session.Modest).Playable s is) (hno : ∀ i ∈ is, ¬ i.IsCommand) :
    is.length ≤ s.left st := by
  induction is generalizing s st with
  | nil => exact Nat.zero_le _
  | cons i is ih =>
    obtain ⟨st', hat, hless⟩ := h.next his.1.1 his.1.2
    have hrest : is.length ≤ (s.next i).left st' :=
      ih hat his.2 fun j hj ↦ hno j (.tail _ hj)
    have hfirst := hless (hno i (.head _))
    rw [List.length_cons]
    omega

theorem Session.At.lockstep (h : s.At st) : Lockstep s := by
  obtain ⟨up, down, htracks, hup, hdown⟩ := h
  have hboundary : s.Boundary → st = .quiet none ∨ st = .ended := fun hb ↦
    htracks.boundary hb.1 hb.2.2.1
  constructor
  case client => exact htracks.not_lost.1
  case server => exact htracks.not_lost.2
  case heard => exact htracks.heard
  case gets => exact ⟨_, htracks.toClient.symm⟩
  case puts => exact ⟨_, htracks.toServer.symm⟩
  case unread =>
    intro hb
    have hup_eq := htracks.up_eq
    have hdown_eq := htracks.down_eq
    rcases hboundary hb with rfl | rfl
    · cases hup_eq
      cases hdown_eq
      exact ⟨hup.eq_empty, hdown.eq_empty⟩
    · cases hup_eq
      cases hdown_eq
      exact ⟨hup.eq_empty, hdown.eq_empty⟩
  case auth =>
    intro hb hover
    rcases hboundary hb with rfl | rfl
    · have hagrees : s.parties.client.clntAuth = s.parties.server.knows := htracks.agrees
      have hdue : s.parties.server.initDue = false := hb.2.2.2.2
      rw [hagrees, Server.knows, hdue, Bool.not_false, Bool.and_true]
    · exact absurd htracks.client hover
  case files =>
    intro hb
    have hclient := htracks.toClient
    have hserver := htracks.toServer
    rcases hboundary hb with rfl | rfl
    · exact ⟨by simpa using hclient.symm, by simpa using hserver.symm⟩
    · exact ⟨by simpa using hclient.symm, by simpa using hserver.symm⟩

private theorem canWrite_of_outbox (h : c.Carries dgrams ms) (hout : c.outbox ≠ []) :
    c.CanWrite 1 := by
  cases hc : c.outbox with
  | nil => exact absurd hc hout
  | cons buf bufs =>
    have hbuf : buf ≠ [] := fun hnil ↦ h.unwritten (by simp [hc, hnil])
    exact ⟨Nat.one_pos, by rw [hc]; exact List.length_pos_iff.mpr hbuf⟩

private theorem canRead_of_carries {d : Datagram} (h : c.Carries dgrams (d :: ms))
    (hout : c.outbox = []) : c.CanRead dgrams 1 := by
  rcases h.canMove with ⟨hpos, hle⟩ | hread
  · rw [hout] at hle
    exact absurd hle (by simp)
  · exact hread

private theorem exists_serverRead {d : Datagram} (hup : s.up.Carries dgrams (d :: ms))
    (hupOut : s.up.outbox = []) (hdownOut : s.down.outbox = [])
    (hdue : s.parties.server.initDue = false) (hstopped : s.parties.server.phase ≠ .stopped)
    (hlost : s.parties.server.phase ≠ .lost) :
    ∃ i, s.Enabled i ∧ s.Modest i ∧ ¬ i.IsCommand := by
  have hlist : 0 ∈ (getFileList s.parties.server.buff (some [0])).bytes := by
    simp [getFileList, Buffer.fill]
  refine ⟨.serverRead ⟨fun _ ↦ none, some [0], []⟩ 1, ⟨hstopped, hlost, hdue, hdownOut,
    canRead_of_carries hup hupOut, ?_⟩, fun _ _ _ ↦ hlist, id⟩
  intro _ _ _ _ hfile
  cases hfile

/-- Once both programs have written all, the stage says which one goes on. -/
theorem Session.At.progress_written (h : s.At st) (hupOut : s.up.outbox = [])
    (hdownOut : s.down.outbox = []) (hdue : s.parties.server.initDue = false) :
    s.Boundary ∨ ∃ i, s.Enabled i ∧ s.Modest i ∧ ¬ i.IsCommand := by
  obtain ⟨up, down, htracks, hup, hdown⟩ := h
  have hclient := htracks.client
  have hat := htracks.server
  have hlost := htracks.not_lost.2
  cases st with
  | quiet late =>
    cases late with
    | none =>
      have hidle : s.parties.server.phase = .request ∨ s.parties.server.phase = .stopped :=
        Or.imp_right And.left hat
      exact .inl ⟨.inl hclient, hupOut, hidle, hdownOut, hdue⟩
    | some file =>
      have hfile : s.parties.server.phase = .file file.1 := hat
      rw [htracks.up_eq] at hup
      exact .inr (exists_serverRead hup hupOut hdownOut hdue (by simp [hfile]) hlost)
  | asked a late =>
    rw [htracks.up_eq] at hup
    cases late with
    | none =>
      have hreq : s.parties.server.phase = .request := hat
      exact .inr (exists_serverRead hup hupOut hdownOut hdue (by simp [hreq]) hlost)
    | some file =>
      have hfile : s.parties.server.phase = .file file.1 := hat
      exact .inr (exists_serverRead hup hupOut hdownOut hdue (by simp [hfile]) hlost)
  | answered r =>
    obtain ⟨d, ds, hreplies⟩ : ∃ d ds, r.replies = d :: ds := by
      cases r <;> exact ⟨_, _, rfl⟩
    have hexpected : s.parties.client.phase.expected ≠ none := by
      rw [hclient, Stage.clientPhase, r.expected hreplies.symm]
      exact Option.some_ne_none _
    rw [htracks.down_eq, Stage.down, hreplies] at hdown
    exact .inr ⟨.clientRead 1, ⟨hexpected, hupOut, canRead_of_carries hdown hdownOut⟩, trivial, id⟩
  | ended => exact .inl ⟨.inr hclient, hupOut, hat, hdownOut, hdue⟩

/-- Until a boundary is reached, one of the programs can go on by itself. -/
theorem Session.At.progress (h : s.At st) :
    s.Boundary ∨ ∃ i, s.Enabled i ∧ s.Modest i ∧ ¬ i.IsCommand := by
  obtain ⟨up, down, htracks, hup, hdown⟩ := h
  by_cases hupOut : s.up.outbox = []
  · by_cases hdownOut : s.down.outbox = []
    · cases hdue : s.parties.server.initDue with
      | true => exact .inr ⟨.serverInit, ⟨hdue, hdownOut⟩, trivial, id⟩
      | false =>
        exact Session.At.progress_written ⟨up, down, htracks, hup, hdown⟩ hupOut hdownOut hdue
    · exact .inr ⟨.serverWrite 1, canWrite_of_outbox hdown hdownOut, trivial, id⟩
  · exact .inr ⟨.clientWrite 1, canWrite_of_outbox hup hupOut, trivial, id⟩

end Invariant

section Lockstep

/-- In every run of a session in which the requests fit in `bbuff` and the listings end with a
zero, client and server are in step; and from wherever they are they come to a boundary after
finitely many calls, unless another command is given before that. -/
theorem ftp_lockstep {s : Session} (h : (sessions.restrict Session.Modest).Reachable s) :
    Lockstep s ∧ (s.Boundary ∨ ∃ i, s.Enabled i ∧ s.Modest i ∧ ¬ i.IsCommand) ∧
      ∃ n, ∀ is, (sessions.restrict Session.Modest).Playable s is →
        (∀ i ∈ is, ¬ i.IsCommand) → is.length ≤ n := by
  obtain ⟨st, hat⟩ := at_of_reachable h
  exact ⟨hat.lockstep, hat.progress, s.left st, fun _ ↦ hat.length_le⟩

def firstOpen : List Move :=
  [.clientWrite 5, .clientWrite 7, .serverRead ⟨fun _ ↦ none, none, []⟩ 12, .serverWrite 12,
    .clientRead 3, .serverInit, .clientRead 9]

theorem ftp_lockstep_firstOpen :
    ((sessions.restrict Session.Modest).play (.start (.zeroed 4096)) firstOpen).parties.client =
      ⟨true, false, .prompt⟩ ∧
    Lockstep ((sessions.restrict Session.Modest).play (.start (.zeroed 4096)) firstOpen) := by
  have hstart : (sessions.restrict Session.Modest).Reachable (.start (.zeroed 4096)) :=
    .init ⟨.zeroed 4096, rfl⟩
  exact ⟨by decide, (ftp_lockstep (hstart.play (by decide))).1⟩

/-- A request that does not fit is written past the end of `bbuff`. -/
theorem next_command_lost {s : Session} {disk : List UInt8 → Option (List UInt8)} {cmd : Command}
    {d : Datagram} (hsends : (s.parties.command disk cmd).2 = [d]) (hlarge : ¬ d.Fits)
    (hlen : d.payload.length < 2 ^ 32) :
    (s.next (.command disk cmd)).parties.client.phase = .lost := by
  have hsend : sendAll s.up (s.parties.command disk cmd).2 = none := by
    rw [hsends, sendAll, writeDgram_eq_none hlarge hlen]
  simp only [Session.next, Session.clientSends, hsend]

private theorem next_auth_lost {s : Session} (disk : List UInt8 → Option (List UInt8))
    {user password : List UInt8} (hclient : s.parties.client = ⟨true, false, .prompt⟩)
    (hlarge : ¬ FitsString (user ++ 0x20 :: password))
    (hlen : (cString (user ++ 0x20 :: password)).length + 1 < 2 ^ 32) :
    (s.next (.command disk (.auth user password))).parties.client.phase = .lost := by
  have hsends : (s.parties.command disk (.auth user password)).2 =
      [.authRequest (user ++ 0x20 :: password)] := by
    simp [Parties.command, Client.command, hclient]
  apply next_command_lost hsends (mt fits_ofString.mp hlarge)
  rwa [Datagram.authRequest, Datagram.ofString, List.length_append, List.length_singleton]

private theorem not_lockstep_of_lost {s : Session} {i : Move}
    (h : (s.next i).parties.client.phase = .lost) : ¬ Lockstep (sessions.play s [i]) :=
  fun hstep ↦ hstep.client h

def longName : List UInt8 := List.replicate (2 ^ 22) 0x61

/-- The first `open`, and a login under a name that is as long as `bbuff`. -/
def longUser : List Move := firstOpen ++ [.command (fun _ ↦ none) (.auth longName [0x62])]

private theorem length_longName : (cString (longName ++ [0x20, 0x62])).length = 2 ^ 22 + 2 := by
  have hletters : ∀ b ∈ longName, decide (b ≠ 0) = true := by
    intro b hb
    rw [List.eq_of_mem_replicate hb]
    decide
  have hpassword : [0x20, 0x62].takeWhile (· ≠ (0 : UInt8)) = [0x20, 0x62] := rfl
  rw [cString, List.takeWhile_append_of_pos hletters, hpassword, List.length_append, longName,
    List.length_replicate, List.length_cons, List.length_singleton]

private theorem not_fitsString_longName : ¬ FitsString (longName ++ [0x20, 0x62]) := by
  rw [fitsString_iff, length_longName]
  omega

/-- The request of that login is written past the end of `bbuff`. -/
theorem lockstep_longUser : sessions.Playable (.start (.zeroed 4096)) longUser ∧
    ¬ Lockstep (sessions.play (.start (.zeroed 4096)) longUser) := by
  have hopen : sessions.Playable (.start (.zeroed 4096)) firstOpen := by decide
  have hclient : (sessions.play (.start (.zeroed 4096)) firstOpen).parties.client =
      ⟨true, false, .prompt⟩ := by decide
  have hidle : (sessions.play (.start (.zeroed 4096)) firstOpen).up.outbox = [] := by decide
  have hissued : (sessions.play (.start (.zeroed 4096)) firstOpen).parties.issued + 1 < 99999 := by
    decide
  have hlen : (cString (longName ++ [0x20, 0x62])).length + 1 < 2 ^ 32 := by
    rw [length_longName]
    omega
  have hlost := next_auth_lost (fun _ ↦ none) hclient not_fitsString_longName hlen
  rw [longUser, TransitionSystem.playable_append, TransitionSystem.play_append]
  exact ⟨⟨hopen, ⟨by rw [hclient], hidle, hissued, trivial⟩, trivial⟩, not_lockstep_of_lost hlost⟩

end Lockstep

end NetworkingLabs.Ftp
