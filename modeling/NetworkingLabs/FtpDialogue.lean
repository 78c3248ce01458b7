import NetworkingLabs.FtpClient

/-!
# The dialogue of the FTP client and server

A command is one exchange of datagrams. What both programs are in the middle of is a stage of
that exchange, and the stage determines every datagram and every file that is on its way.
-/
namespace NetworkingLabs.Ftp

section Stages

/-- A command whose request the server has not taken. -/
inductive Ask
  | openConn
  | auth (credentials : List UInt8)
  | ls
  | get (filename : List UInt8)
  | put (filename contents : List UInt8)
  | quit

/-- A command whose request the server has taken, and what the client has still to read. -/
inductive Answer
  | openConn
  | auth (authPass : Bool)
  | ls (list : List UInt8)
  | getMissing (filename : List UInt8)
  | getFound (filename contents : List UInt8)
  | getFile (filename contents : List UInt8)
  | put (filename contents : List UInt8)
  | quit

/-- The stages of the dialogue. A file that the client has put may still be on its way to the
server while the client goes on. -/
inductive Stage
  | quiet (late : Option File)
  | asked (a : Ask) (late : Option File)
  | answered (r : Answer)
  | ended

namespace Ask

@[simp] def phase : Ask → ClientPhase
  | openConn => .openReply
  | auth _ => .authReply
  | ls => .listReply
  | get filename => .getReply filename
  | put _ contents => .putReply contents
  | quit => .quitReply

@[simp] def request : Ask → Datagram
  | openConn => .openConnRequest
  | auth credentials => .authRequest credentials
  | ls => .listRequest
  | get filename => .getRequest filename
  | put filename _ => .putRequest filename
  | quit => .quitRequest

@[simp] def actions : Ask → List Action
  | put filename contents => [.send (cString filename) contents]
  | _ => []

@[simp] def toServer : Ask → List File
  | put filename contents => [(cString filename, contents)]
  | _ => []

end Ask

namespace Answer

@[simp] def phase : Answer → ClientPhase
  | openConn => .openReply
  | auth _ => .authReply
  | ls _ => .listReply
  | getMissing filename => .getReply filename
  | getFound filename _ => .getReply filename
  | getFile filename _ => .fileData filename
  | put _ contents => .putReply contents
  | quit => .quitReply

@[simp] def replies : Answer → List Datagram
  | openConn => [.openConnReply 1]
  | auth authPass => [.authReply authPass]
  | ls list => [.listReply list]
  | getMissing _ => [.getReply false]
  | getFound _ contents => [.getReply true, .fileData contents]
  | getFile _ contents => [.fileData contents]
  | put _ _ => [.putReply]
  | quit => [.quitReply]

@[simp] def toServer : Answer → List File
  | put filename contents => [(cString filename, contents)]
  | _ => []

@[simp] def toClient : Answer → List File
  | getFound filename contents => [(cString filename, contents)]
  | getFile filename contents => [(cString filename, contents)]
  | _ => []

end Answer

namespace Answer

@[simp] def next : Answer → Stage
  | openConn => .quiet none
  | auth true => .quiet none
  | auth false => .ended
  | ls _ => .quiet none
  | getMissing _ => .quiet none
  | getFound filename contents => .answered (.getFile filename contents)
  | getFile _ _ => .quiet none
  | put filename contents => .quiet (some (cString filename, contents))
  | quit => .ended

@[simp] def client (c : Client) : Answer → Client
  | openConn => { c.connSucess with phase := .prompt }
  | auth true => { c.authSucess with phase := .prompt }
  | auth false => { c.authFail with phase := .stopped }
  | ls _ => { c with phase := .prompt }
  | getMissing _ => { c with phase := .prompt }
  | getFound filename _ => { c with phase := .fileData filename }
  | getFile _ _ => { c with phase := .prompt }
  | put _ _ => { c with phase := .prompt }
  | quit => { c with phase := .stopped }

@[simp] def actions : Answer → List Action
  | getFile filename contents => [.write (cString filename) contents]
  | _ => []

end Answer

namespace Stage

@[simp] def clientPhase : Stage → ClientPhase
  | quiet _ => .prompt
  | asked a _ => a.phase
  | answered r => r.phase
  | ended => .stopped

@[simp] def up : Stage → List Datagram
  | quiet late => late.toList.map (.fileData ·.2)
  | asked a late => late.toList.map (.fileData ·.2) ++ [a.request]
  | answered _ => []
  | ended => []

@[simp] def down : Stage → List Datagram
  | answered r => r.replies
  | _ => []

@[simp] def toServer : Stage → List File
  | quiet late => late.toList
  | asked a late => late.toList ++ a.toServer
  | answered r => r.toServer
  | ended => []

@[simp] def toClient : Stage → List File
  | answered r => r.toClient
  | _ => []

/-- The turns of the server's loop that have still to end. -/
@[simp] def turnsDue : Stage → ℕ
  | quiet late => late.toList.length
  | asked _ late => late.toList.length + 1
  | answered (.put _ _) => 1
  | answered _ => 0
  | ended => 0

/-- More than the datagrams that will still be read before the dialogue is quiet. -/
@[simp] def rank : Stage → ℕ
  | quiet late => late.toList.length
  | asked _ late => late.toList.length + 4
  | answered (.put _ _) => 2
  | answered r => r.replies.length
  | ended => 0

/-- The server waits in its loop, or has served as many datagrams as it ever will. -/
def Idle (s : Server) : Prop := s.phase = .request ∨ s.phase = .stopped ∧ s.waitTimesLim = 0

@[simp] def ServerAt (s : Server) : Stage → Prop
  | quiet none => Idle s
  | quiet (some file) => s.phase = .file file.1
  | asked _ none => s.phase = .request
  | asked _ (some file) => s.phase = .file file.1
  | answered (.put filename _) => s.phase = .file (cString filename)
  | answered .quit => s.phase = .stopped
  | answered _ => Idle s
  | ended => s.phase = .request ∨ s.phase = .stopped

/-- What the client believes, or will once it has read its reply, is what the server knows. -/
@[simp] def Agrees (clntAuth authPass : Bool) : Stage → Prop
  | answered .openConn => authPass = false
  | answered (.auth replied) => authPass = replied
  | ended => True
  | _ => clntAuth = authPass

end Stage

/-- What the server knows once a pending `initConn` is done. -/
def Server.knows (s : Server) : Bool := s.authPass && !s.initDue

structure Tracks (st : Stage) (p : Parties) (up down : List Datagram) : Prop where
  client : p.client.phase = st.clientPhase
  server : st.ServerAt p.server
  up_eq : up = st.up
  down_eq : down = st.down
  toServer : sent p.clientDid = written p.serverDid ++ st.toServer
  toClient : sent p.serverDid = written p.clientDid ++ st.toClient
  small : ∀ file ∈ st.toServer, file.2.length < fileBufSize
  heard : ∀ x ∈ p.heard, x.1 = some x.2
  agrees : st.Agrees p.client.clntAuth p.server.knows
  issued : p.issued < 99999
  turns : 99998 + st.turnsDue ≤ p.server.waitTimesLim + p.issued

end Stages

section Basics

variable {acts acts' : List Action}

@[simp] theorem sent_append : sent (acts ++ acts') = sent acts ++ sent acts' :=
  List.filterMap_append

@[simp] theorem written_append : written (acts ++ acts') = written acts ++ written acts' :=
  List.filterMap_append

@[simp] theorem sent_nil : sent [] = [] := rfl

@[simp] theorem written_nil : written [] = [] := rfl

private theorem cString_append_zero (s rest : List UInt8) :
    cString (cString s ++ 0 :: rest) = cString s := by
  induction s with
  | nil => rfl
  | cons b s ih =>
    by_cases hb : b = 0
    · simp [cString, hb]
    · simpa [cString, hb] using ih

theorem string_ofString (e : Surroundings) (type status : UInt8) (s : List UInt8) :
    e.string (Datagram.ofString type status s).payload = cString s := by
  have hassoc : cString s ++ [0] ++ e.after = cString s ++ 0 :: e.after := by simp
  rw [Surroundings.string, Datagram.ofString, hassoc, cString_append_zero]

theorem Ask.sent_actions (a : Ask) : sent a.actions = a.toServer := by
  cases a <;> rfl

theorem Ask.written_actions (a : Ask) : written a.actions = [] := by
  cases a <;> rfl

theorem start_tracks (buff : Buffer 4096) :
    Tracks (.asked .openConn none) (.start buff) [.openConnRequest] [] := by
  constructor <;> simp [Parties.start, Server.start, Stage.clientPhase, Ask.phase, Stage.ServerAt,
    Stage.up, Ask.request, Stage.down, Stage.toServer, Ask.toServer, Stage.toClient, Stage.Agrees,
    Server.knows, Stage.turnsDue]

end Basics

section Answers

variable {d : Datagram} {ds : List Datagram} {known : Bool}

namespace Answer

theorem handle (r : Answer) {c : Client} (hc : c.phase = r.phase) (hd : d :: ds = r.replies) :
    c.handle d = ⟨r.client c, r.next.up, r.actions⟩ := by
  cases r with
  | auth authPass =>
    cases hd
    cases authPass <;> simp +decide [Client.handle, hc]
  | getMissing filename =>
    cases hd
    simp +decide [Client.handle, hc]
  | getFound filename contents =>
    cases hd
    simp +decide [Client.handle, hc]
  | _ =>
    cases hd
    simp [Client.handle, hc, Datagram.fileData]

theorem expected (r : Answer) (hd : d :: ds = r.replies) : r.phase.expected = some d.type := by
  cases r <;> cases hd <;> rfl

private theorem client_phase (r : Answer) (c : Client) :
    (r.client c).phase = r.next.clientPhase := by
  cases r with
  | auth authPass => cases authPass <;> rfl
  | _ => rfl

private theorem next_down (r : Answer) (hd : d :: ds = r.replies) : ds = r.next.down := by
  cases r with
  | auth authPass => cases authPass <;> cases hd <;> rfl
  | _ => cases hd; rfl

private theorem next_toServer (r : Answer) : r.next.toServer = r.toServer := by
  cases r with
  | auth authPass => cases authPass <;> rfl
  | _ => rfl

theorem sent_actions (r : Answer) : sent r.actions = [] := by
  cases r <;> rfl

private theorem next_toClient (r : Answer) : written r.actions ++ r.next.toClient = r.toClient := by
  cases r with
  | auth authPass => cases authPass <;> rfl
  | _ => rfl

private theorem next_turnsDue (r : Answer) : r.next.turnsDue ≤ (Stage.answered r).turnsDue := by
  cases r with
  | auth authPass => cases authPass <;> exact Nat.le_refl _
  | _ => exact Nat.le_refl _

private theorem next_rank (r : Answer) : r.next.rank < (Stage.answered r).rank := by
  cases r with
  | auth authPass => cases authPass <;> exact Nat.one_pos
  | getFound filename contents => exact Nat.one_lt_two
  | put filename contents => exact Nat.one_lt_two
  | _ => exact Nat.one_pos

/-- After a request, less is left to be read than a request counts for. -/
theorem rank_le (r : Answer) : (Stage.answered r).rank ≤ 2 := by
  cases r <;> simp

private theorem next_serverAt (r : Answer) {s : Server} (h : (Stage.answered r).ServerAt s) :
    r.next.ServerAt s := by
  cases r with
  | auth authPass =>
    cases authPass with
    | true => exact h
    | false => exact Or.imp_right And.left h
  | quit => exact .inr h
  | _ => exact h

/-- What the client believes after the reply is what the server knows. -/
theorem next_agrees (r : Answer) {c : Client} (h : (Stage.answered r).Agrees c.clntAuth known) :
    r.next.Agrees (r.client c).clntAuth known := by
  cases r with
  | openConn => exact Eq.symm h
  | auth authPass =>
    cases authPass with
    | true => exact Eq.symm h
    | false => trivial
  | quit => trivial
  | _ => exact h

end Answer

end Answers

section Steps

variable {st : Stage} {p : Parties} {up down : List Datagram} {late : Option File}
variable {disk : List UInt8 → Option (List UInt8)} {cmd : Command} {e : Surroundings}

theorem Tracks.quiet (h : Tracks st p up down) (hprompt : p.client.phase = .prompt) :
    ∃ late, st = .quiet late := by
  have hphase := h.client
  rw [hprompt] at hphase
  cases st with
  | quiet late => exact ⟨late, rfl⟩
  | asked a late => cases a <;> cases hphase
  | answered r => cases r <;> cases hphase
  | ended => cases hphase

theorem Tracks.stay (h : Tracks (.quiet late) p up down) (hissued : p.issued + 1 < 99999)
    (hturn : p.client.command disk cmd = ⟨p.client, [], []⟩) :
    Tracks (.quiet late) (p.command disk cmd).1 (up ++ (p.command disk cmd).2) down := by
  have hturns := h.turns
  simp only [Parties.command, hturn, List.append_nil]
  exact { h with issued := hissued, turns := by dsimp only; omega }

/-- A command for which the client sends a request. While the limit of the server's turns is
not reached, the server waits for it or for a file in front of it. -/
theorem Tracks.ask (h : Tracks (.quiet late) p up down) (hissued : p.issued + 1 < 99999) (a : Ask)
    (hturn : p.client.command disk cmd =
      ⟨{ p.client with phase := a.phase }, [a.request], a.actions⟩)
    (hsmall : ∀ file ∈ a.toServer, file.2.length < fileBufSize) :
    Tracks (.asked a late) (p.command disk cmd).1 (up ++ (p.command disk cmd).2) down := by
  have hturns := h.turns
  simp only [Parties.command, hturn]
  constructor
  case client => rfl
  case server =>
    cases late with
    | none =>
      rcases h.server with hreq | ⟨-, hzero⟩
      · exact hreq
      · simp only [hzero, Stage.turnsDue, Option.toList_none, List.length_nil] at hturns
        omega
    | some file => exact h.server
  case up_eq => rw [h.up_eq]; rfl
  case down_eq => exact h.down_eq
  case toServer =>
    rw [sent_append, h.toServer, a.sent_actions, List.append_assoc]
    rfl
  case toClient =>
    rw [written_append, a.written_actions, List.append_nil]
    exact h.toClient
  case small =>
    intro file hfile
    rcases List.mem_append.mp hfile with hfile | hfile
    · exact h.small file hfile
    · exact hsmall file hfile
  case heard => exact h.heard
  case agrees => exact h.agrees
  case issued => exact hissued
  case turns =>
    simp only [Stage.turnsDue] at hturns ⊢
    omega

theorem Tracks.command (h : Tracks st p up down) (hprompt : p.client.phase = .prompt)
    (hissued : p.issued + 1 < 99999) (hsmall : cmd.Small disk) :
    ∃ st', Tracks st' (p.command disk cmd).1 (up ++ (p.command disk cmd).2) down := by
  obtain ⟨late, rfl⟩ := h.quiet hprompt
  cases cmd with
  | openConn => exact ⟨_, h.ask hissued .openConn rfl (by simp)⟩
  | auth user password =>
    by_cases hconn : p.client.clntConn = true
    · by_cases hauth : p.client.clntAuth = true
      · exact ⟨_, h.stay hissued (by simp [Client.command, hconn, hauth])⟩
      · exact ⟨_, h.ask hissued (.auth (user ++ 0x20 :: password))
          (by simp [Client.command, hconn, hauth]) (by simp)⟩
    · exact ⟨_, h.stay hissued (by simp [Client.command, hconn])⟩
  | ls =>
    by_cases hauth : p.client.checkAuth = true
    · exact ⟨_, h.ask hissued .ls (by simp [Client.command, hauth]) (by simp)⟩
    · exact ⟨_, h.stay hissued (by simp [Client.command, hauth])⟩
  | get filename =>
    by_cases hauth : p.client.checkAuth = true
    · exact ⟨_, h.ask hissued (.get filename) (by simp [Client.command, hauth]) (by simp)⟩
    · exact ⟨_, h.stay hissued (by simp [Client.command, hauth])⟩
  | put filename =>
    by_cases hauth : p.client.checkAuth = true
    · cases hdisk : disk (cString filename) with
      | none => exact ⟨_, h.stay hissued (by simp [Client.command, hauth, hdisk])⟩
      | some file =>
        have hfile : file.length < fileBufSize := hsmall file hdisk
        exact ⟨_, h.ask hissued (.put filename file)
          (by simp [Client.command, hauth, hdisk, upload_small hfile]) (by simpa using hfile)⟩
    · exact ⟨_, h.stay hissued (by simp [Client.command, hauth])⟩
  | quit => exact ⟨_, h.ask hissued .quit rfl (by simp)⟩

theorem Tracks.hear {d : Datagram} {r : Answer} (h : Tracks (.answered r) p up (d :: down)) :
    Tracks r.next (p.clientTakes d).1 (up ++ (p.clientTakes d).2) down := by
  have hdown : d :: down = r.replies := h.down_eq
  have hturns := h.turns
  have hless := r.next_turnsDue
  simp only [Parties.clientTakes, r.handle h.client hdown]
  constructor
  case client => exact r.client_phase p.client
  case server => exact r.next_serverAt h.server
  case up_eq => rw [h.up_eq]; rfl
  case down_eq => exact r.next_down hdown
  case toServer =>
    rw [sent_append, r.sent_actions, List.append_nil, r.next_toServer]
    exact h.toServer
  case toClient =>
    rw [written_append, List.append_assoc, r.next_toClient]
    exact h.toClient
  case small =>
    rw [r.next_toServer]
    exact h.small
  case heard =>
    intro x hx
    rcases List.mem_append.mp hx with hx | hx
    · exact h.heard x hx
    · cases List.mem_singleton.mp hx
      rw [h.client]
      exact r.expected hdown
  case agrees => exact r.next_agrees h.agrees
  case issued => exact h.issued
  case turns => dsimp only; omega

theorem Tracks.clientTakes {d : Datagram} (h : Tracks st p up (d :: down)) :
    ∃ st', Tracks st' (p.clientTakes d).1 (up ++ (p.clientTakes d).2) down ∧
      st'.rank < st.rank := by
  cases st with
  | quiet late => cases h.down_eq
  | asked a late => cases h.down_eq
  | answered r => exact ⟨r.next, h.hear, r.next_rank⟩
  | ended => cases h.down_eq

/-- The server reads a request, or the file behind it. -/
theorem Tracks.serve {d : Datagram} (h : Tracks st p (d :: up) down)
    {st' : Stage} {s' : Server} {sends : List Datagram} {acts : List Action}
    (hturn : p.server.handle e d = ⟨s', sends, acts⟩) (hphase : st.clientPhase = st'.clientPhase)
    (hserver : st'.ServerAt s') (hup : up = st'.up) (hdown : st.down ++ sends = st'.down)
    (htoServer : st.toServer = written acts ++ st'.toServer)
    (htoClient : st.toClient ++ sent acts = st'.toClient)
    (hagrees : st'.Agrees p.client.clntAuth s'.knows)
    (hturns : 99998 + st'.turnsDue ≤ s'.waitTimesLim + p.issued) :
    Tracks st' (p.serverTakes e d).1 up (down ++ (p.serverTakes e d).2) := by
  simp only [Parties.serverTakes, hturn]
  constructor
  case client => rw [← hphase]; exact h.client
  case server => exact hserver
  case up_eq => exact hup
  case down_eq => rw [h.down_eq, hdown]
  case toServer =>
    rw [written_append, List.append_assoc, ← htoServer]
    exact h.toServer
  case toClient =>
    rw [sent_append, h.toClient, List.append_assoc, htoClient]
  case small =>
    intro file hfile
    exact h.small file (htoServer ▸ List.mem_append_right _ hfile)
  case heard => exact h.heard
  case agrees => exact hagrees
  case issued => exact h.issued
  case turns => exact hturns

theorem Tracks.small_contents {contents : List UInt8} (h : Tracks st p up down)
    (hphase : p.client.phase = .putReply contents) : contents.length < fileBufSize := by
  have hclient := h.client
  rw [hphase] at hclient
  cases st with
  | quiet late => cases hclient
  | asked a late =>
    cases a with
    | put filename contents' =>
      cases hclient
      exact h.small (cString filename, contents) (by simp)
    | _ => cases hclient
  | answered r =>
    cases r with
    | put filename contents' =>
      cases hclient
      exact h.small (cString filename, contents) (by simp)
    | _ => cases hclient
  | ended => cases hclient

theorem Tracks.clientTakes_sendable (h : Tracks st p up down) (d : Datagram) :
    Sendable (p.clientTakes d).2 := by
  cases hphase : p.client.phase with
  | putReply contents =>
    simp only [Parties.clientTakes, Client.handle, hphase]
    exact .single (fits_fileData (h.small_contents hphase))
  | authReply =>
    simp only [Parties.clientTakes, Client.handle, hphase]
    split <;> exact .nil
  | getReply filename =>
    simp only [Parties.clientTakes, Client.handle, hphase]
    split <;> exact .nil
  | _ => simpa only [Parties.clientTakes, Client.handle, hphase] using .nil

/-- After a turn, the server waits for the next datagram or has served all that it ever will. -/
theorem idle_loop (s : Server) : Stage.Idle s.loop := by
  by_cases hzero : s.waitTimesLim - 1 = 0
  · exact .inr ⟨if_pos hzero, hzero⟩
  · exact .inl (if_neg hzero)

theorem Tracks.takeFile {d : Datagram} {file : File} (h : Tracks st p (d :: up) down)
    (hst : st = .quiet (some file) ∨ ∃ a, st = .asked a (some file)) :
    ∃ st', Tracks st' (p.serverTakes e d).1 up (down ++ (p.serverTakes e d).2) ∧
      st'.rank < st.rank := by
  have hup := h.up_eq
  have hturns := h.turns
  have hissued := h.issued
  have hturn : ∀ file : File, p.server.phase = .file file.1 →
      p.server.handle e (.fileData file.2) = ⟨p.server.loop, [], [.write file.1 file.2]⟩ :=
    fun _ hphase ↦ Server.handle_file hphase
  have hlimit : p.server.loop.waitTimesLim = p.server.waitTimesLim - 1 := rfl
  rcases hst with rfl | ⟨a, rfl⟩
  · cases hup
    simp only [Stage.turnsDue, Option.toList_some, List.length_cons, List.length_nil] at hturns
    refine ⟨.quiet none, h.serve (hturn file h.server) rfl (idle_loop p.server) rfl rfl rfl rfl
      h.agrees ?_, Nat.one_pos⟩
    simp only [Stage.turnsDue, Option.toList_none, List.length_nil]
    omega
  · cases hup
    simp only [Stage.turnsDue, Option.toList_some, List.length_cons, List.length_nil] at hturns
    -- the limit leaves a turn for the request
    have hmore : p.server.loop.phase = .request := if_neg (by omega)
    refine ⟨.asked a none, h.serve (hturn file h.server) rfl hmore rfl rfl rfl rfl h.agrees ?_, ?_⟩
    · simp only [Stage.turnsDue, Option.toList_none, List.length_nil]
      omega
    · simp

/-- The server reads a request, having nothing else to do. -/
theorem Tracks.takeRequest {d : Datagram} {a : Ask} (h : Tracks (.asked a none) p (d :: up) down)
    (hdue : p.server.initDue = false)
    (hbuff : d.type = listRequest → 0 ∈ (getFileList p.server.buff e.listing).bytes)
    (hdisk : d.type = getRequest →
      ∀ file ∈ e.disk (e.string d.payload), file.length < fileBufSize) :
    ∃ r, Tracks (.answered r) (p.serverTakes e d).1 up (down ++ (p.serverTakes e d).2) := by
  have hup := h.up_eq
  have hserver : p.server.phase = .request := h.server
  have hagrees : p.client.clntAuth = p.server.knows := h.agrees
  have hturns : 99998 ≤ p.server.loop.waitTimesLim + p.issued := by
    have := h.turns
    simp only [Stage.turnsDue, Option.toList_none, List.length_nil] at this
    simp only [Server.loop]
    omega
  cases a with
  | openConn =>
    cases hup
    exact ⟨.openConn, h.serve (Server.handle_openConnRequest hserver rfl) rfl
      (idle_loop p.server) rfl rfl rfl rfl (by simp [Server.knows]) hturns⟩
  | auth credentials =>
    cases hup
    have hpass : (p.server.check (e.string (Datagram.authRequest credentials).payload)).loop.knows =
        (p.server.check (e.string (Datagram.authRequest credentials).payload)).authPass := by
      simp [Server.knows, Server.loop, Server.check, hdue]
    exact ⟨.auth _, h.serve (Server.handle_authRequest hserver rfl) rfl
      (idle_loop _) rfl rfl rfl rfl hpass hturns⟩
  | ls =>
    cases hup
    have htype : Datagram.listRequest.type = listRequest := rfl
    have hturn := Server.handle_listRequest (e := e) hserver htype
    rw [if_pos (hbuff rfl)] at hturn
    exact ⟨.ls _, h.serve hturn rfl (idle_loop p.server) rfl rfl rfl rfl hagrees hturns⟩
  | get filename =>
    cases hup
    have hname : e.string (Datagram.getRequest filename).payload = cString filename :=
      string_ofString e _ _ filename
    have htype : (Datagram.getRequest filename).type = getRequest := rfl
    have hturn := Server.handle_getRequest (e := e) hserver htype
    rw [hname] at hturn
    cases hfile : e.disk (cString filename) with
    | none =>
      simp only [hfile, Option.map_none] at hturn
      exact ⟨.getMissing filename,
        h.serve hturn rfl (idle_loop p.server) rfl rfl rfl rfl hagrees hturns⟩
    | some file =>
      have hsmall : file.length < fileBufSize :=
        hdisk rfl file (by rw [Ask.request, hname]; exact hfile)
      simp only [hfile, Option.map_some, upload_small hsmall] at hturn
      exact ⟨.getFound filename file,
        h.serve hturn rfl (idle_loop p.server) rfl rfl rfl rfl hagrees hturns⟩
  | put filename contents =>
    cases hup
    have htype : (Datagram.putRequest filename).type = putRequest := rfl
    have hturn := Server.handle_putRequest (e := e) hserver htype
    rw [Datagram.putRequest, string_ofString] at hturn
    exact ⟨.put filename contents,
      h.serve hturn rfl rfl rfl rfl rfl rfl hagrees h.turns⟩
  | quit =>
    cases hup
    exact ⟨.quit, h.serve (Server.handle_quitRequest hserver rfl) rfl rfl rfl rfl rfl rfl
      hagrees (Nat.le_of_succ_le h.turns)⟩

theorem Tracks.serverTakes {d : Datagram} (h : Tracks st p (d :: up) down)
    (hdue : p.server.initDue = false)
    (hbuff : d.type = listRequest → 0 ∈ (getFileList p.server.buff e.listing).bytes)
    (hdisk : d.type = getRequest →
      ∀ file ∈ e.disk (e.string d.payload), file.length < fileBufSize) :
    ∃ st', Tracks st' (p.serverTakes e d).1 up (down ++ (p.serverTakes e d).2) ∧
      st'.rank < st.rank := by
  cases st with
  | quiet late =>
    cases late with
    | none => cases h.up_eq
    | some file => exact h.takeFile (.inl rfl)
  | asked a late =>
    cases late with
    | none =>
      obtain ⟨r, htracks⟩ := h.takeRequest hdue hbuff hdisk
      have hrank : (Stage.answered r).rank ≤ 2 := r.rank_le
      exact ⟨.answered r, htracks, Nat.lt_of_le_of_lt hrank (by simp)⟩
    | some file => exact h.takeFile (.inr ⟨a, rfl⟩)
  | answered r => cases h.up_eq
  | ended => cases h.up_eq

theorem Tracks.serverInit (h : Tracks st p up down) (hdue : p.server.initDue = true) :
    Tracks st p.serverInit up down where
  client := h.client
  server := by
    have hserver := h.server
    cases st with
    | quiet late => cases late <;> exact hserver
    | asked a late => cases late <;> exact hserver
    | answered r => cases r <;> exact hserver
    | ended => exact hserver
  up_eq := h.up_eq
  down_eq := h.down_eq
  toServer := h.toServer
  toClient := h.toClient
  small := h.small
  heard := h.heard
  agrees := by
    have hknows : p.serverInit.server.knows = p.server.knows := by
      simp [Server.knows, Parties.serverInit, Server.initConn, hdue]
    rw [hknows]
    exact h.agrees
  issued := h.issued
  turns := h.turns

end Steps

section Boundaries

variable {st : Stage} {p : Parties} {up down : List Datagram}

/-- At a boundary the dialogue is over: no datagram and no file is on its way. -/
theorem Tracks.boundary (h : Tracks st p up down)
    (hclient : p.client.phase = .prompt ∨ p.client.phase = .stopped)
    (hserver : p.server.phase = .request ∨ p.server.phase = .stopped) :
    st = .quiet none ∨ st = .ended := by
  have hphase := h.client
  have hat := h.server
  cases st with
  | quiet late =>
    cases late with
    | none => exact .inl rfl
    | some file =>
      have hfile : p.server.phase = .file file.1 := hat
      rcases hserver with hreq | hover
      · cases hreq.symm.trans hfile
      · cases hover.symm.trans hfile
  | asked a late =>
    rcases hclient with hprompt | hover
    · cases a <;> cases hprompt.symm.trans hphase
    · cases a <;> cases hover.symm.trans hphase
  | answered r =>
    rcases hclient with hprompt | hover
    · cases r <;> cases hprompt.symm.trans hphase
    · cases r <;> cases hover.symm.trans hphase
  | ended => exact .inr rfl

theorem Tracks.not_lost (h : Tracks st p up down) :
    p.client.phase ≠ .lost ∧ p.server.phase ≠ .lost := by
  have hphase := h.client
  have hat := h.server
  constructor
  · intro hlost
    rw [hlost] at hphase
    cases st with
    | quiet late => cases hphase
    | asked a late => cases a <;> cases hphase
    | answered r => cases r <;> cases hphase
    | ended => cases hphase
  · intro hlost
    cases st with
    | quiet late => cases late <;> simp [hlost, Stage.Idle] at hat
    | asked a late => cases late <;> simp [hlost] at hat
    | answered r => cases r <;> simp [hlost, Stage.Idle] at hat
    | ended => simp [hlost] at hat

end Boundaries

end NetworkingLabs.Ftp
