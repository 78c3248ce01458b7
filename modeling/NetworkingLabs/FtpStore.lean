import NetworkingLabs.FtpPrompt
import NetworkingLabs.FtpSession

/-!
# The file store that the FTP client and server make up

Two programs, two byte streams and two file systems, driven by the lines that are typed at the
prompt. Seen from there they are one machine that does a line at a time: what is read and written
on either side in the end is what the lines say, in the order in which they were typed.
-/
namespace NetworkingLabs.Ftp

section Disks

/-- The files of one side. A path leads to the same place all the time, and two paths may lead to
one place. -/
structure Disk where
  inode : List UInt8 → ℕ
  content : ℕ → Option (List UInt8)

namespace Disk

def read (d : Disk) (filepath : List UInt8) : Option (List UInt8) := d.content (d.inode filepath)

def write (d : Disk) (file : File) : Disk :=
  { d with content := Function.update d.content (d.inode file.1) (some file.2) }

def writes (d : Disk) (files : List File) : Disk := files.foldl write d

variable {d : Disk} {files files' : List File}

@[simp] theorem writes_nil : d.writes [] = d := rfl

private theorem writes_append : d.writes (files ++ files') = (d.writes files).writes files' :=
  List.foldl_append

def Small (d : Disk) : Prop := ∀ n, ∀ file ∈ d.content n, file.length < fileBufSize

theorem Small.write {file : File} (h : d.Small) (hfile : file.2.length < fileBufSize) :
    (d.write file).Small := by
  intro n contents hcontents
  simp only [Disk.write, Function.update_apply] at hcontents
  split at hcontents
  · cases hcontents
    exact hfile
  · exact h n contents hcontents

theorem Small.writes (h : d.Small) (hfiles : ∀ file ∈ files, file.2.length < fileBufSize) :
    (d.writes files).Small := by
  induction files generalizing d with
  | nil => exact h
  | cons file files ih =>
    exact ih (h.write (hfiles file List.mem_cons_self)) fun file' hfile' ↦
      hfiles file' (List.mem_cons_of_mem file hfile')

end Disk

end Disks

section Abstract

/-- The machine as it is seen from the prompt: whether the user is logged in, whether the client
has been left, and the files on both sides. -/
structure Remote where
  granted : Bool
  left : Bool
  here : Disk
  there : Disk

namespace Remote

def get (r : Remote) (filename : List UInt8) : Remote :=
  match r.there.read filename with
  | none => r
  | some contents => { r with here := r.here.write (filename, contents) }

def put (r : Remote) (filename : List UInt8) : Remote :=
  match r.here.read filename with
  | none => r
  | some contents => { r with there := r.there.write (filename, contents) }

def enter (r : Remote) (line : List UInt8) : Remote :=
  match words line with
  | [] => r
  | name :: args =>
    if name = openWord then { r with granted := false }
    else if name = quitWord then { r with left := true }
    else if r.granted then
      if name = getWord then args.head?.elim r r.get
      else if name = putWord then args.head?.elim r r.put
      else r
    else if name = authWord then
      if args.take 2 = [uid, pass] then { r with granted := true } else { r with left := true }
    else r

def apply (r : Remote) : Command → Remote
  | .openConn => { r with granted := false }
  | .auth user password =>
    if user = uid ∧ password = pass then { r with granted := true } else { r with left := true }
  | .ls => r
  | .get filename => r.get filename
  | .put filename => r.put filename
  | .quit => { r with left := true }

end Remote

/-- The client goes on with a command only in the right state, and with words that were typed. -/
def Client.Follows (c : Client) : Command → Prop
  | .auth user password => c.clntAuth = false ∧ Typed user ∧ Typed password
  | .ls => c.clntAuth = true
  | .get filename | .put filename => c.clntAuth = true ∧ Typed filename
  | .openConn | .quit => True

variable {c : Client} {r : Remote} {line : List UInt8} {entered : Option Command}

theorem enter_eq (hconn : c.clntConn = true) (hgranted : r.granted = c.clntAuth)
    (hzero : (0 : UInt8) ∉ line) (h : c.entered (parserCmd line) = some entered) :
    r.enter line = entered.elim r r.apply ∧ ∀ cmd ∈ entered, c.Follows cmd := by
  have htyped : ∀ word ∈ words line, Typed word := fun _ ↦ typed_of_mem_words hzero
  rw [parserCmd_eq_words] at h
  rw [Remote.enter]
  generalize words line = ws at h htyped ⊢
  cases ws with
  | nil =>
    cases h
    exact ⟨rfl, by simp⟩
  | cons name args =>
    have hnames := names_checkCmd name args
    generalize htype : checkCmd (name :: args) = type at hnames
    simp only [Client.entered, htype, Client.checkAuth, hconn, Bool.true_and] at h
    cases hnames with
    | openConn =>
      cases h
      exact ⟨rfl, by simp [Client.Follows]⟩
    | auth =>
      cases hauth : c.clntAuth with
      | true =>
        rw [hauth] at hgranted h
        cases h
        exact ⟨by simp +decide [hgranted], by simp⟩
      | false =>
        rw [hauth] at hgranted h
        rcases args with _ | ⟨user, _ | ⟨password, args⟩⟩
        · cases h
        · cases h
        · cases h
          refine ⟨by simp +decide [hgranted, Remote.apply], ?_⟩
          rintro _ ⟨⟩
          exact ⟨hauth, htyped user (by simp), htyped password (by simp)⟩
    | ls =>
      cases hauth : c.clntAuth with
      | true =>
        rw [hauth] at hgranted h
        cases h
        exact ⟨by simp +decide [hgranted, Remote.apply], by simpa [Client.Follows] using hauth⟩
      | false =>
        rw [hauth] at hgranted h
        cases h
        exact ⟨by simp +decide [hgranted], by simp⟩
    | get =>
      cases hauth : c.clntAuth with
      | true =>
        rw [hauth] at hgranted h
        cases args with
        | nil => cases h
        | cons filename args =>
          cases h
          refine ⟨by simp +decide [hgranted, Remote.apply], ?_⟩
          rintro _ ⟨⟩
          exact ⟨hauth, htyped filename (by simp)⟩
      | false =>
        rw [hauth] at hgranted h
        cases h
        exact ⟨by simp +decide [hgranted], by simp⟩
    | put =>
      cases hauth : c.clntAuth with
      | true =>
        rw [hauth] at hgranted h
        cases args with
        | nil => cases h
        | cons filename args =>
          cases h
          refine ⟨by simp +decide [hgranted, Remote.apply], ?_⟩
          rintro _ ⟨⟩
          exact ⟨hauth, htyped filename (by simp)⟩
      | false =>
        rw [hauth] at hgranted h
        cases h
        exact ⟨by simp +decide [hgranted], by simp⟩
    | quit =>
      cases h
      exact ⟨rfl, by simp [Client.Follows]⟩
    | unknown hname =>
      cases h
      simp only [List.mem_cons, List.not_mem_nil, or_false, not_or] at hname
      exact ⟨by simp [hname], by simp⟩

end Abstract

section Outcomes

/-- A late file arrives before anything that is asked for after it. -/
def Remote.settle (r : Remote) (late : Option File) : Remote :=
  { r with there := r.there.writes late.toList }

def Ask.outcome (r : Remote) : Ask → Remote
  | .openConn => { r with granted := false }
  | .auth credentials =>
    if Right credentials then { r with granted := true } else { r with left := true }
  | .ls => r
  | .get filename => r.get (cString filename)
  | .put filename contents => { r with there := r.there.write (cString filename, contents) }
  | .quit => { r with left := true }

def Answer.outcome (r : Remote) : Answer → Remote
  | .openConn => { r with granted := false }
  | .auth authPass => { r with granted := authPass, left := !authPass }
  | .ls _ => r
  | .getMissing _ => r
  | .getFound filename contents | .getFile filename contents =>
    { r with here := r.here.write (cString filename, contents) }
  | .put filename contents => { r with there := r.there.write (cString filename, contents) }
  | .quit => { r with left := true }

/-- What there will be once the dialogue is quiet. -/
def Stage.outcome (r : Remote) : Stage → Remote
  | .quiet late => r.settle late
  | .asked a late => a.outcome (r.settle late)
  | .answered a => a.outcome r
  | .ended => { r with left := true }

def Parties.remote (here there : Disk) (p : Parties) : Remote where
  granted := p.client.clntAuth
  left := false
  here := here.writes (written p.clientDid)
  there := there.writes (written p.serverDid)

def Ask.Acting : Ask → Prop
  | .ls | .get _ | .put _ _ => True
  | .openConn | .auth _ | .quit => False

def Stage.Acting : Stage → Prop
  | .quiet late => late.isSome
  | .asked a late => late.isSome ∨ a.Acting
  | .answered (.put _ _) => True
  | .answered _ | .ended => False

structure Serves (here there : Disk) (r : Remote) (st : Stage) (p : Parties)
    (up down : List Datagram) : Prop where
  tracks : Tracks st p up down
  outcome : st.outcome (p.remote here there) = r
  conn : p.client.phase ≠ .openReply → p.client.phase ≠ .stopped → p.client.clntConn = true
  held : st.Acting → p.client.clntAuth = true
  credentials : ∀ auth late, st = .asked (.auth auth) late →
    2 ≤ (words (cString auth)).length ∧ p.client.clntAuth = false
  small : ∀ file ∈ sent p.clientDid, file.2.length < fileBufSize

variable {here there : Disk} {r : Remote} {st : Stage} {p : Parties} {up down : List Datagram}
  {late : Option File} {cmd : Command} {e : Surroundings} {d : Datagram}

theorem Serves.start (buff : Buffer 4096) :
    Serves here there ⟨false, false, here, there⟩ (.asked .openConn none) (.start buff)
      [.openConnRequest] [] where
  tracks := start_tracks buff
  outcome := rfl
  conn := fun h ↦ absurd rfl h
  held := fun h ↦ absurd h (by simp [Stage.Acting, Ask.Acting])
  credentials := by simp
  small := by simp [Parties.start]

theorem Serves.ask {disk : List UInt8 → Option (List UInt8)}
    (h : Serves here there r (.quiet late) p up down) (hissued : p.issued + 1 < 99999) (a : Ask)
    (hturn : p.client.command disk cmd =
      ⟨{ p.client with phase := a.phase }, [a.request], a.actions⟩)
    (hsmall : ∀ file ∈ a.toServer, file.2.length < fileBufSize)
    (hheld : a.Acting → p.client.clntAuth = true)
    (hcredentials : ∀ auth, a = .auth auth →
      2 ≤ (words (cString auth)).length ∧ p.client.clntAuth = false) :
    Serves here there (a.outcome r) (.asked a late) (p.command disk cmd).1
      (up ++ (p.command disk cmd).2) down := by
  have hremote : (p.command disk cmd).1.remote here there = p.remote here there := by
    simp only [Parties.command, hturn, Parties.remote, written_append, a.written_actions,
      List.append_nil]
  have hauth : (p.command disk cmd).1.client.clntAuth = p.client.clntAuth := by
    simp [Parties.command, hturn]
  have hconn : (p.command disk cmd).1.client.clntConn = p.client.clntConn := by
    simp [Parties.command, hturn]
  constructor
  case tracks => exact h.tracks.ask hissued a hturn hsmall
  case outcome => rw [hremote, ← h.outcome]; rfl
  case conn =>
    intro _ _
    have hprompt : p.client.phase = .prompt := h.tracks.client
    rw [hconn]
    exact h.conn (by simp [hprompt]) (by simp [hprompt])
  case held =>
    rw [hauth]
    rintro (hlate | hacting)
    · exact h.held hlate
    · exact hheld hacting
  case credentials =>
    rintro auth late ⟨⟩
    rw [hauth]
    exact hcredentials auth rfl
  case small =>
    intro file hfile
    simp only [Parties.command, hturn, sent_append, a.sent_actions] at hfile
    rcases List.mem_append.mp hfile with hfile | hfile
    · exact h.small file hfile
    · exact hsmall file hfile

theorem Serves.stay {disk : List UInt8 → Option (List UInt8)}
    (h : Serves here there r (.quiet late) p up down) (hissued : p.issued + 1 < 99999)
    (hturn : p.client.command disk cmd = ⟨p.client, [], []⟩) :
    Serves here there r (.quiet late) (p.command disk cmd).1 (up ++ (p.command disk cmd).2)
      down := by
  have hsame : (p.command disk cmd).1 = { p with issued := p.issued + 1 } := by
    simp [Parties.command, hturn]
  exact ⟨h.tracks.stay hissued hturn, by rw [hsame]; exact h.outcome, by rw [hsame]; exact h.conn,
    by rw [hsame]; exact h.held, by simp, by rw [hsame]; exact h.small⟩

/-- A command that the client goes on with leads to what it says. -/
theorem Serves.command (h : Serves here there r (.quiet late) p up down)
    (hfollows : p.client.Follows cmd) (hissued : p.issued + 1 < 99999)
    (hsmall : cmd.Small (here.writes (written p.clientDid)).read) :
    ∃ st', Serves here there (r.apply cmd) st'
      (p.command (here.writes (written p.clientDid)).read cmd).1
      (up ++ (p.command (here.writes (written p.clientDid)).read cmd).2) down := by
  have hprompt : p.client.phase = .prompt := h.tracks.client
  have hconn : p.client.clntConn = true := h.conn (by simp [hprompt]) (by simp [hprompt])
  have hhere : r.here = here.writes (written p.clientDid) := by
    rw [← h.outcome]
    rfl
  cases cmd with
  | openConn =>
    exact ⟨_, h.ask hissued .openConn rfl (by simp) (fun hacting ↦ hacting.elim) (by simp)⟩
  | auth user password =>
    obtain ⟨hauth, huser, hpassword⟩ := hfollows
    have hwords := words_credentials huser hpassword
    have hout :
        (Ask.auth (user ++ 0x20 :: password)).outcome r = r.apply (.auth user password) := by
      simp [Ask.outcome, Remote.apply, Right, hwords]
    rw [← hout]
    refine ⟨_, h.ask hissued (.auth (user ++ 0x20 :: password))
      (by simp [Client.command, hconn, hauth]) (by simp) (fun hacting ↦ hacting.elim) ?_⟩
    rintro _ ⟨⟩
    exact ⟨by simp [hwords], hauth⟩
  | ls =>
    have hauth : p.client.clntAuth = true := hfollows
    exact ⟨_, h.ask hissued .ls (by simp [Client.command, Client.checkAuth, hconn, hauth])
      (by simp) (fun _ ↦ hauth) (by simp)⟩
  | get filename =>
    obtain ⟨hauth, hname⟩ := hfollows
    have hout : (Ask.get filename).outcome r = r.apply (.get filename) := by
      rw [Ask.outcome, cString_eq_self hname.zero]
      rfl
    rw [← hout]
    exact ⟨_, h.ask hissued (.get filename)
      (by simp [Client.command, Client.checkAuth, hconn, hauth]) (by simp) (fun _ ↦ hauth)
      (by simp)⟩
  | put filename =>
    obtain ⟨hauth, hname⟩ := hfollows
    have hstring := cString_eq_self hname.zero
    cases hread : (here.writes (written p.clientDid)).read filename with
    | none =>
      have hnone : r.apply (.put filename) = r := by
        rw [Remote.apply, Remote.put, hhere, hread]
      rw [hnone]
      exact ⟨_, h.stay hissued (by simp [Client.command, Client.checkAuth, hconn, hauth, hstring,
        hread])⟩
    | some file =>
      have hfile : file.length < fileBufSize := hsmall file (by rw [hstring]; exact hread)
      have hout : (Ask.put filename file).outcome r = r.apply (.put filename) := by
        rw [Ask.outcome, Remote.apply, Remote.put, hhere, hread, hstring]
      rw [← hout]
      exact ⟨_, h.ask hissued (.put filename file) (by simp [Client.command, Client.checkAuth,
        hconn, hauth, hstring, hread, upload_small hfile]) (by simpa using hfile) (fun _ ↦ hauth)
        (by simp)⟩
  | quit =>
    exact ⟨_, h.ask hissued .quit rfl (by simp) (fun hacting ↦ hacting.elim) (by simp)⟩

namespace Answer

private theorem next_outcome (a : Answer) (c : Client) :
    a.next.outcome ⟨(a.client c).clntAuth, false, here.writes (written a.actions), there⟩ =
      a.outcome ⟨c.clntAuth, false, here, there⟩ := by
  cases a with
  | auth authPass => cases authPass <;> rfl
  | _ => rfl

private theorem next_conn (a : Answer) {c : Client} (hphase : c.phase = a.phase)
    (hc : c.phase ≠ .openReply → c.phase ≠ .stopped → c.clntConn = true)
    (hstopped : (a.client c).phase ≠ .stopped) : (a.client c).clntConn = true := by
  cases a with
  | openConn => rfl
  | auth authPass =>
    cases authPass with
    | true => rfl
    | false => exact absurd rfl hstopped
  | _ => exact hc (by simp [hphase]) (by simp [hphase])

/-- Only a file that is put is left for the server to write. -/
theorem next_held (a : Answer) {c : Client}
    (hc : (Stage.answered a).Acting → c.clntAuth = true) (h : a.next.Acting) :
    (a.client c).clntAuth = true := by
  cases a with
  | auth authPass => cases authPass <;> simp [Stage.Acting] at h
  | put filename contents => exact hc trivial
  | _ => simp [Stage.Acting] at h

private theorem next_ne_asked (a : Answer) (q : Ask) (late : Option File) :
    a.next ≠ .asked q late := by
  cases a with
  | auth authPass => cases authPass <;> simp
  | _ => simp

end Answer

theorem Serves.clientTakes (h : Serves here there r st p up (d :: down)) :
    ∃ st', Serves here there r st' (p.clientTakes d).1 (up ++ (p.clientTakes d).2) down := by
  cases st with
  | quiet late => cases h.tracks.down_eq
  | asked a late => cases h.tracks.down_eq
  | ended => cases h.tracks.down_eq
  | answered a =>
    have hphase : p.client.phase = a.phase := h.tracks.client
    have hturn := a.handle hphase h.tracks.down_eq
    have hclient : (p.clientTakes d).1.client = a.client p.client := by
      rw [Parties.clientTakes, hturn]
    have hremote : (p.clientTakes d).1.remote here there =
        ⟨(a.client p.client).clntAuth, false,
          (here.writes (written p.clientDid)).writes (written a.actions),
          there.writes (written p.serverDid)⟩ := by
      simp only [Parties.remote, Parties.clientTakes, hturn, written_append, Disk.writes_append]
    have hsent : sent (p.clientTakes d).1.clientDid = sent p.clientDid := by
      simp only [Parties.clientTakes, hturn, sent_append, a.sent_actions, List.append_nil]
    refine ⟨a.next, h.tracks.hear, ?_, ?_, ?_, ?_, by rw [hsent]; exact h.small⟩
    · rw [hremote, a.next_outcome]
      exact h.outcome
    · rw [hclient]
      exact fun _ ↦ a.next_conn hphase h.conn
    · rw [hclient]
      exact a.next_held h.held
    · intro auth late hasked
      exact absurd hasked (a.next_ne_asked _ _)

def Ask.answer (e : Surroundings) (s : Server) : Ask → Answer
  | .openConn => .openConn
  | .auth credentials => .auth (s.check (cString credentials)).authPass
  | .ls => .ls (getFileList s.buff e.listing).bytes
  | .get filename =>
    match e.disk (cString filename) with
    | none => .getMissing filename
    | some contents => .getFound filename contents
  | .put filename contents => .put filename contents
  | .quit => .quit

theorem Ask.answer_outcome (a : Ask) (s : Server) (hdisk : e.disk = r.there.read)
    (hcredentials : ∀ auth, a = .auth auth →
      2 ≤ (words (cString auth)).length ∧ r.granted = false)
    (hleft : r.left = false) : (a.answer e s).outcome r = a.outcome r := by
  cases a with
  | auth credentials =>
    obtain ⟨hwords, hgranted⟩ := hcredentials credentials rfl
    have hpass := check_authPass (s := s) hwords
    by_cases hright : Right credentials
    · simp [Ask.answer, Answer.outcome, Ask.outcome, hright, hpass.mpr hright, hleft]
    · simp [Ask.answer, Answer.outcome, Ask.outcome, hright, mt hpass.mp hright, hgranted]
  | get filename =>
    simp only [Ask.answer, Ask.outcome, Remote.get, hdisk]
    cases r.there.read (cString filename) <;> rfl
  | _ => rfl

theorem Tracks.answer {a : Ask} (h : Tracks (.asked a none) p (d :: up) down)
    (hdue : p.server.initDue = false)
    (hbuff : d.type = listRequest → 0 ∈ (getFileList p.server.buff e.listing).bytes)
    (hdisk : d.type = getRequest →
      ∀ file ∈ e.disk (e.string d.payload), file.length < fileBufSize) :
    Tracks (.answered (a.answer e p.server)) (p.serverTakes e d).1 up
      (down ++ (p.serverTakes e d).2) := by
  have hup : d :: up = [a.request] := h.up_eq
  cases hup
  have hserver : p.server.phase = .request := h.server
  have hagrees : p.client.clntAuth = p.server.knows := h.agrees
  have hturns : 99998 ≤ p.server.loop.waitTimesLim + p.issued := by
    have := h.turns
    simp only [Stage.turnsDue, Option.toList_none, List.length_nil] at this
    simp only [Server.loop]
    omega
  cases a with
  | openConn =>
    exact h.serve (Server.handle_openConnRequest hserver rfl) rfl (idle_loop p.server) rfl rfl rfl
      rfl (by simp [Ask.answer, Server.knows]) hturns
  | auth credentials =>
    have htype : (Datagram.authRequest credentials).type = authRequest := rfl
    have hturn := Server.handle_authRequest (e := e) hserver htype
    rw [Datagram.authRequest, string_ofString] at hturn
    refine h.serve hturn rfl (idle_loop _) rfl rfl rfl rfl ?_ hturns
    simp [Ask.answer, Server.knows, Server.loop, Server.check, hdue]
  | ls =>
    have htype : Datagram.listRequest.type = listRequest := rfl
    have hturn := Server.handle_listRequest (e := e) hserver htype
    rw [if_pos (hbuff rfl)] at hturn
    exact h.serve hturn rfl (idle_loop p.server) rfl rfl rfl rfl hagrees hturns
  | get filename =>
    have hname : e.string (Datagram.getRequest filename).payload = cString filename :=
      string_ofString e _ _ filename
    have htype : (Datagram.getRequest filename).type = getRequest := rfl
    have hturn := Server.handle_getRequest (e := e) hserver htype
    rw [hname] at hturn
    rw [Ask.answer]
    cases hfile : e.disk (cString filename) with
    | none =>
      simp only [hfile, Option.map_none] at hturn
      exact h.serve hturn rfl (idle_loop p.server) rfl rfl rfl rfl hagrees hturns
    | some file =>
      have hsmall : file.length < fileBufSize :=
        hdisk rfl file (by rw [Ask.request, hname]; exact hfile)
      simp only [hfile, Option.map_some, upload_small hsmall] at hturn
      exact h.serve hturn rfl (idle_loop p.server) rfl rfl rfl rfl hagrees hturns
  | put filename contents =>
    have htype : (Datagram.putRequest filename).type = putRequest := rfl
    have hturn := Server.handle_putRequest (e := e) hserver htype
    rw [Datagram.putRequest, string_ofString] at hturn
    exact h.serve hturn rfl rfl rfl rfl rfl rfl hagrees h.turns
  | quit =>
    exact h.serve (Server.handle_quitRequest hserver rfl) rfl rfl rfl rfl rfl rfl hagrees
      (Nat.le_of_succ_le h.turns)

private theorem written_handle {s : Server} (hs : s.phase = .request) :
    written (s.handle e d).actions = [] := by
  simp only [Server.handle, hs]
  split_ifs <;> try rfl
  cases (e.disk (e.string d.payload)).map upload with
  | none => rfl
  | some file => cases file <;> rfl

theorem Serves.serve {st' : Stage} (h : Serves here there r st p (d :: up) down)
    (htracks : Tracks st' (p.serverTakes e d).1 up (down ++ (p.serverTakes e d).2))
    (hout : st'.outcome ((p.serverTakes e d).1.remote here there) =
      st.outcome (p.remote here there))
    (hacting : st'.Acting → st.Acting)
    (hasked : ∀ auth late, st' = .asked (.auth auth) late → ∃ late, st = .asked (.auth auth) late) :
    Serves here there r st' (p.serverTakes e d).1 up (down ++ (p.serverTakes e d).2) where
  tracks := htracks
  outcome := hout.trans h.outcome
  conn := h.conn
  held := fun hst' ↦ h.held (hacting hst')
  credentials := fun auth late hst' ↦ by
    obtain ⟨late', hst⟩ := hasked auth late hst'
    exact h.credentials auth late' hst
  small := h.small

theorem Serves.answer {a : Ask} (h : Serves here there r (.asked a none) p (d :: up) down)
    (hdue : p.server.initDue = false)
    (hbuff : d.type = listRequest → 0 ∈ (getFileList p.server.buff e.listing).bytes)
    (hsmall : d.type = getRequest →
      ∀ file ∈ e.disk (e.string d.payload), file.length < fileBufSize)
    (hdisk : e.disk = (there.writes (written p.serverDid)).read) :
    Serves here there r (.answered (a.answer e p.server)) (p.serverTakes e d).1 up
      (down ++ (p.serverTakes e d).2) := by
  have hserver : p.server.phase = .request := h.tracks.server
  have hremote : (p.serverTakes e d).1.remote here there = p.remote here there := by
    simp only [Parties.serverTakes, Parties.remote, written_append, written_handle hserver,
      List.append_nil]
  refine h.serve (h.tracks.answer hdue hbuff hsmall) ?_ ?_ (by simp)
  · rw [hremote]
    refine a.answer_outcome p.server hdisk ?_ rfl
    rintro auth rfl
    exact h.credentials auth none rfl
  · intro hacting
    cases a with
    | put filename contents => exact .inr trivial
    | get filename =>
      rw [Ask.answer] at hacting
      cases hfile : e.disk (cString filename) <;> simp [hfile, Stage.Acting] at hacting
    | _ => exact hacting.elim

theorem Serves.takeFile {file : File} (h : Serves here there r st p (d :: up) down)
    (hst : st = .quiet (some file) ∨ ∃ a, st = .asked a (some file)) :
    ∃ st', Serves here there r st' (p.serverTakes e d).1 up (down ++ (p.serverTakes e d).2) := by
  have hissued := h.tracks.issued
  have hturns := h.tracks.turns
  have hlimit : p.server.loop.waitTimesLim = p.server.waitTimesLim - 1 := rfl
  have hup := h.tracks.up_eq
  have htake : p.server.phase = .file file.1 → d = .fileData file.2 →
      p.server.handle e d = ⟨p.server.loop, [], [.write file.1 file.2]⟩ := by
    rintro hphase rfl
    exact Server.handle_file hphase
  rcases hst with rfl | ⟨a, rfl⟩
  · have hd : d = .fileData file.2 := (List.cons.inj hup).1
    have hturn := htake h.tracks.server hd
    cases hup
    simp only [Stage.turnsDue, Option.toList_some, List.length_cons, List.length_nil] at hturns
    refine ⟨.quiet none, h.serve (h.tracks.serve hturn rfl (idle_loop p.server) rfl rfl rfl rfl
      h.tracks.agrees ?_) ?_ (fun hacting ↦ absurd hacting (by simp [Stage.Acting])) (by simp)⟩
    · simp only [Stage.turnsDue, Option.toList_none, List.length_nil]
      omega
    · simp [Stage.outcome, Parties.serverTakes, Parties.remote, hturn, Remote.settle, written,
        Disk.writes]
  · have hd : d = .fileData file.2 := (List.cons.inj hup).1
    have hturn := htake h.tracks.server hd
    cases hup
    simp only [Stage.turnsDue, Option.toList_some, List.length_cons, List.length_nil] at hturns
    -- the limit leaves a turn for the request
    have hmore : p.server.loop.phase = .request := if_neg (by omega)
    refine ⟨.asked a none, h.serve (h.tracks.serve hturn rfl hmore rfl rfl rfl rfl h.tracks.agrees
      ?_) ?_ (fun hacting ↦ .inl rfl) (by simp)⟩
    · simp only [Stage.turnsDue, Option.toList_none, List.length_nil]
      omega
    · simp [Stage.outcome, Parties.serverTakes, Parties.remote, hturn, Remote.settle, written,
        Disk.writes]

theorem Serves.serverTakes (h : Serves here there r st p (d :: up) down)
    (hdue : p.server.initDue = false)
    (hbuff : d.type = listRequest → 0 ∈ (getFileList p.server.buff e.listing).bytes)
    (hsmall : d.type = getRequest →
      ∀ file ∈ e.disk (e.string d.payload), file.length < fileBufSize)
    (hdisk : e.disk = (there.writes (written p.serverDid)).read) :
    ∃ st', Serves here there r st' (p.serverTakes e d).1 up (down ++ (p.serverTakes e d).2) := by
  cases st with
  | quiet late =>
    cases late with
    | none => cases h.tracks.up_eq
    | some file => exact h.takeFile (.inl rfl)
  | asked a late =>
    cases late with
    | none => exact ⟨_, h.answer hdue hbuff hsmall hdisk⟩
    | some file => exact h.takeFile (.inr ⟨a, rfl⟩)
  | answered a => cases h.tracks.up_eq
  | ended => cases h.tracks.up_eq

theorem Serves.serverInit (h : Serves here there r st p up down)
    (hdue : p.server.initDue = true) : Serves here there r st p.serverInit up down :=
  ⟨h.tracks.serverInit hdue, h.outcome, h.conn, h.held, h.credentials, h.small⟩

end Outcomes

end NetworkingLabs.Ftp
