import NetworkingLabs.FtpServer

/-!
# The FTP client

The loop of the client between two calls of `readDgram`, for commands that come after the first
successful `open`, and both programs side by side.
-/
namespace NetworkingLabs.Ftp

section Client

/-- A command with the words that follow it; the address of `open` is not looked at again. -/
inductive Command
  | openConn
  | auth (user password : List UInt8)
  | ls
  | get (filename : List UInt8)
  | put (filename : List UInt8)
  | quit
  deriving DecidableEq

def Command.Small (disk : List UInt8 → Option (List UInt8)) : Command → Prop
  | .put filename => ∀ file ∈ disk (cString filename), file.length < fileBufSize
  | _ => True

instance (disk : List UInt8 → Option (List UInt8)) (cmd : Command) :
    Decidable (cmd.Small disk) := by
  cases cmd <;> unfold Command.Small <;> infer_instance

inductive ClientPhase
  | prompt
  | openReply
  | authReply
  | listReply
  | quitReply
  | getReply (filename : List UInt8)
  | fileData (filename : List UInt8)
  | putReply (contents : List UInt8)
  | stopped
  | lost  -- past the end of some memory, or in a loop that never ends
  deriving DecidableEq

/-- The type of the datagram that the client takes the next one for. -/
def ClientPhase.expected : ClientPhase → Option UInt8
  | .openReply => some Ftp.openConnReply
  | .authReply => some Ftp.authReply
  | .listReply => some Ftp.listReply
  | .quitReply => some Ftp.quitReply
  | .getReply _ => some Ftp.getReply
  | .fileData _ => some Ftp.fileData
  | .putReply _ => some Ftp.putReply
  | .prompt | .stopped | .lost => none

structure Client where
  clntConn : Bool
  clntAuth : Bool
  phase : ClientPhase
  deriving DecidableEq

namespace Client

def checkAuth (c : Client) : Bool := c.clntConn && c.clntAuth

def connSucess (c : Client) : Client := { c with clntConn := true, clntAuth := false }

def authSucess (c : Client) : Client := { c with clntConn := true, clntAuth := true }

def authFail (c : Client) : Client := { c with clntConn := false, clntAuth := false }

/-- The turn of the loop for a command, up to `readDgram` or to the prompt again. -/
def command (disk : List UInt8 → Option (List UInt8)) (c : Client) : Command → Turn Client
  | .openConn => ⟨{ c with phase := .openReply }, [.openConnRequest], []⟩
  | .auth user password =>
    if !c.clntConn then ⟨c, [], []⟩
    else if c.clntAuth then ⟨c, [], []⟩
    else ⟨{ c with phase := .authReply }, [.authRequest (user ++ 0x20 :: password)], []⟩
  | .ls =>
    if !c.checkAuth then ⟨c, [], []⟩
    else ⟨{ c with phase := .listReply }, [.listRequest], []⟩
  | .quit => ⟨{ c with phase := .quitReply }, [.quitRequest], []⟩
  | .get filename =>
    if !c.checkAuth then ⟨c, [], []⟩
    else ⟨{ c with phase := .getReply filename }, [.getRequest filename], []⟩
  | .put filename =>
    if !c.checkAuth then ⟨c, [], []⟩
    else match (disk (cString filename)).map upload with
      | none => ⟨c, [], []⟩
      | some none => ⟨{ c with phase := .lost }, [], []⟩
      | some (some contents) => ⟨{ c with phase := .putReply contents },
          [.putRequest filename], [.send (cString filename) contents]⟩

/-- The rest of the turn, from the datagram just read. -/
def handle (c : Client) (reply : Datagram) : Turn Client :=
  match c.phase with
  | .openReply => ⟨{ c.connSucess with phase := .prompt }, [], []⟩
  | .authReply =>
    if reply.type = authReply ∧ reply.status = 1 then
      ⟨{ c.authSucess with phase := .prompt }, [], []⟩
    else ⟨{ c.authFail with phase := .stopped }, [], []⟩
  | .listReply => ⟨{ c with phase := .prompt }, [], []⟩
  | .quitReply => ⟨{ c with phase := .stopped }, [], []⟩
  | .getReply filename =>
    if reply.status = 0 then ⟨{ c with phase := .prompt }, [], []⟩
    else ⟨{ c with phase := .fileData filename }, [], []⟩
  | .fileData filename =>
    ⟨{ c with phase := .prompt }, [], [.write (cString filename) reply.payload]⟩
  | .putReply contents => ⟨{ c with phase := .prompt }, [.fileData contents], []⟩
  | .prompt | .stopped | .lost => ⟨c, [], []⟩

/-- Strings that the client is about to send are short enough for `bbuff`. -/
def Brief (disk : List UInt8 → Option (List UInt8)) (c : Client) : Command → Prop
  | .auth user password => c.clntConn = true → c.clntAuth = false →
      FitsString (user ++ 0x20 :: password)
  | .get filename => c.checkAuth = true → FitsString filename
  | .put filename => c.checkAuth = true → (disk (cString filename)).isSome = true →
      FitsString filename
  | _ => True

instance (disk : List UInt8 → Option (List UInt8)) (c : Client) (cmd : Command) :
    Decidable (c.Brief disk cmd) := by
  cases cmd <;> unfold Brief <;> infer_instance

theorem command_sendable {disk : List UInt8 → Option (List UInt8)} {c : Client} {cmd : Command}
    (h : c.Brief disk cmd) : Sendable (c.command disk cmd).sends := by
  cases cmd with
  | openConn => exact .single (fits_bare rfl)
  | auth user password =>
    simp only [command, Bool.not_eq_true']
    split_ifs with hconn hauth
    · exact .nil
    · exact .nil
    · exact .single (fits_ofString.mpr (h (by simpa using hconn) (by simpa using hauth)))
  | ls =>
    simp only [command]
    split_ifs
    · exact .nil
    · exact .single (fits_bare rfl)
  | quit => exact .single (fits_bare rfl)
  | get filename =>
    simp only [command, Bool.not_eq_true']
    split_ifs with hcheck
    · exact .nil
    · exact .single (fits_ofString.mpr (h (by simpa using hcheck)))
  | put filename =>
    simp only [command, Bool.not_eq_true']
    split_ifs with hcheck
    · exact .nil
    · cases hdisk : disk (cString filename) with
      | none => exact .nil
      | some file =>
        have hfits : FitsString filename := h (by simpa using hcheck) (by simp [hdisk])
        cases hupload : upload file with
        | none =>
          simp only [Option.map_some, hupload]
          exact .nil
        | some contents =>
          simp only [Option.map_some, hupload]
          exact .single (fits_ofString.mpr hfits)

end Client

end Client

section Parties

/-- Client and server, with what they have done: how many commands were issued, for each
datagram that the client read the type that it expected and the one that it got, and what was
done to files. -/
structure Parties where
  client : Client
  server : Server
  issued : ℕ
  heard : List (Option UInt8 × UInt8)
  clientDid : List Action
  serverDid : List Action

namespace Parties

/-- A step of either party gives the datagrams to be sent. -/
def command (p : Parties) (disk : List UInt8 → Option (List UInt8)) (cmd : Command) :
    Parties × List Datagram :=
  let turn := p.client.command disk cmd
  ({ p with
    client := turn.party
    issued := p.issued + 1
    clientDid := p.clientDid ++ turn.actions }, turn.sends)

def clientTakes (p : Parties) (reply : Datagram) : Parties × List Datagram :=
  let turn := p.client.handle reply
  ({ p with
    client := turn.party
    heard := p.heard ++ [(p.client.phase.expected, reply.type)]
    clientDid := p.clientDid ++ turn.actions }, turn.sends)

def serverTakes (p : Parties) (e : Surroundings) (rev : Datagram) : Parties × List Datagram :=
  let turn := p.server.handle e rev
  ({ p with server := turn.party, serverDid := p.serverDid ++ turn.actions }, turn.sends)

def serverInit (p : Parties) : Parties := { p with server := p.server.initConn }

/-- The first `open` has connected and waits for its reply. -/
def start (buff : Buffer 4096) : Parties where
  client := ⟨false, false, .openReply⟩
  server := .start buff
  issued := 0
  heard := []
  clientDid := []
  serverDid := []

end Parties

abbrev File := List UInt8 × List UInt8

def sent (actions : List Action) : List File :=
  actions.filterMap fun
    | .send filepath contents => some (filepath, contents)
    | _ => none

def written (actions : List Action) : List File :=
  actions.filterMap fun
    | .write filepath contents => some (filepath, contents)
    | _ => none

end Parties

end NetworkingLabs.Ftp
