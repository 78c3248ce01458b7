import NetworkingLabs.FtpStore

/-!
# Runs of the file store

The sessions as they are driven from the prompt: lines are typed, and the two programs make their
calls in any order. The files on both sides follow what was typed, and nothing that was typed is
left undone.
-/
namespace NetworkingLabs.Ftp

section Machine

/-- A line that is typed, or a call that one of the programs makes. -/
inductive Input
  | line (text : List UInt8)
  | clientWrite (b : ℕ)
  | clientRead (b : ℕ)
  | serverWrite (b : ℕ)
  | serverInit
  | serverRead (listing : Option (List UInt8)) (after : List UInt8) (b : ℕ)

def Input.IsLine : Input → Prop
  | .line _ => True
  | _ => False

def typedLines (is : List Input) : List (List UInt8) :=
  is.filterMap fun
    | .line text => some text
    | _ => none

namespace Session

def here (s : Session) (d : Disk) : Disk := d.writes (written s.parties.clientDid)

def there (s : Session) (d : Disk) : Disk := d.writes (written s.parties.serverDid)

/-- What an input makes happen, or `some none` for a line that the client turns down; `none` reads
past the end of a vector. -/
def reads (here there : Disk) (s : Session) : Input → Option (Option Move)
  | .line text => (s.parties.client.entered (parserCmd text)).map
      (Option.map (.command (s.here here).read))
  | .clientWrite b => some (some (.clientWrite b))
  | .clientRead b => some (some (.clientRead b))
  | .serverWrite b => some (some (.serverWrite b))
  | .serverInit => some (some .serverInit)
  | .serverRead listing after b =>
    some (some (.serverRead ⟨(s.there there).read, listing, after⟩ b))

def Ready (s : Session) : Input → Prop
  | .line text => (0 : UInt8) ∉ text ∧ s.parties.client.phase = .prompt ∧ s.up.outbox = []
  | _ => True

instance (s : Session) : (inp : Input) → Decidable (s.Ready inp)
  | .line _ => inferInstanceAs (Decidable (_ ∧ _))
  | .clientWrite _ | .clientRead _ | .serverWrite _ | .serverInit | .serverRead _ _ _ =>
    .isTrue trivial

def Takes (s : Session) : Option (Option Move) → Prop
  | none => False
  | some none => True
  | some (some i) => s.Enabled i ∧ s.Modest i

instance (s : Session) : (o : Option (Option Move)) → Decidable (s.Takes o)
  | none => .isFalse id
  | some none => .isTrue trivial
  | some (some _) => inferInstanceAs (Decidable (_ ∧ _))

def remote (here there : Disk) (s : Session) : Remote where
  granted := s.parties.client.clntAuth
  left := s.parties.client.phase = .stopped
  here := s.here here
  there := s.there there

end Session

/-- The sessions that are driven from the prompt, over files that nobody else touches. -/
def store (here there : Disk) : TransitionSystem Session Input where
  init s := ∃ buff, s = .start buff
  enabled s inp := s.Ready inp ∧ s.Takes (s.reads here there inp)
  next s inp := match s.reads here there inp with
    | some (some i) => s.next i
    | _ => s

instance (here there : Disk) (s : Session) (inp : Input) :
    Decidable ((store here there).enabled s inp) :=
  inferInstanceAs (Decidable (_ ∧ _))

end Machine

section Refinement

variable {here there : Disk} {r : Remote} {s : Session} {st : Stage} {up down : List Datagram}
  {x : Parties × List Datagram} {i : Move} {inp : Input}

def Session.Serves (here there : Disk) (r : Remote) (s : Session) : Prop :=
  ∃ st up down, Ftp.Serves here there r st s.parties up down ∧ s.up.Carries dgrams up ∧
    s.down.Carries dgrams down

theorem Session.Serves.at (h : s.Serves here there r) : ∃ st, s.At st := by
  obtain ⟨st, up, down, hserves, hup, hdown⟩ := h
  exact ⟨st, up, down, hserves.tracks, hup, hdown⟩

private theorem clientSends_serves (h : Serves here there r st x.1 (up ++ x.2) down)
    (hup : s.up.Carries dgrams up) (hdown : s.down.Carries dgrams down)
    (hfits : ∀ d ∈ x.2, d.Fits) : (s.clientSends x).Serves here there r := by
  obtain ⟨c, hsend, hcarries, -⟩ := sendAll_carries hup hfits
  rw [Session.clientSends, hsend]
  exact ⟨st, _, _, h, hcarries, hdown⟩

private theorem serverSends_serves (h : Serves here there r st x.1 up (down ++ x.2))
    (hup : s.up.Carries dgrams up) (hdown : s.down.Carries dgrams down)
    (hfits : ∀ d ∈ x.2, d.Fits) : (s.serverSends x).Serves here there r := by
  obtain ⟨c, hsend, hcarries, -⟩ := sendAll_carries hdown hfits
  rw [Session.serverSends, hsend]
  exact ⟨st, _, _, h, hup, hcarries⟩

/-- A call of one of the programs leads where it was going. -/
theorem Session.Serves.next (h : s.Serves here there r) (hcommand : ¬ i.IsCommand)
    (hi : s.Enabled i) (hmodest : s.Modest i)
    (hdisk : ∀ e b, i = .serverRead e b → e.disk = (s.there there).read) :
    (s.next i).Serves here there r := by
  obtain ⟨st, up, down, hserves, hup, hdown⟩ := h
  cases i with
  | command disk cmd => exact absurd trivial hcommand
  | clientWrite b => exact ⟨st, up, down, hserves, hup.write b, hdown⟩
  | serverWrite b => exact ⟨st, up, down, hserves, hup, hdown.write b⟩
  | serverInit => exact ⟨st, up, down, hserves.serverInit hi.1, hup, hdown⟩
  | clientRead b =>
    rcases hdown.read hi.2.2 with ⟨d, down', rfl, harr, hrest⟩ | ⟨harr, hrest⟩
    · obtain ⟨st', hserves'⟩ := hserves.clientTakes
      simp only [Session.next, harr]
      exact clientSends_serves (s := { s with down := s.down.read dgrams b }) hserves' hup hrest
        (hserves.tracks.clientTakes_sendable d).fits
    · simp only [Session.next, harr]
      exact ⟨st, up, down, hserves, hup, hrest⟩
  | serverRead e b =>
    obtain ⟨-, -, hdue, -, hb, hsmall⟩ := hi
    rcases hup.read hb with ⟨d, up', rfl, harr, hrest⟩ | ⟨harr, hrest⟩
    · obtain ⟨st', hserves'⟩ := hserves.serverTakes (e := e) hdue (hmodest d harr) (hsmall d harr)
        (hdisk e b rfl)
      simp only [Session.next, harr]
      exact serverSends_serves (s := { s with up := s.up.read dgrams b }) hserves' hrest hdown
        (handle_sendable e s.parties.server d).fits
    · simp only [Session.next, harr]
      exact ⟨st, up, down, hserves, hrest, hdown⟩

theorem Session.Serves.line {text : List UInt8} (h : s.Serves here there r)
    (hi : (store here there).enabled s (.line text)) :
    ((store here there).next s (.line text)).Serves here there (r.enter text) := by
  obtain ⟨st, up, down, hserves, hup, hdown⟩ := h
  obtain ⟨⟨hzero, hprompt, -⟩, htakes⟩ := hi
  obtain ⟨late, rfl⟩ := hserves.tracks.quiet hprompt
  have hconn : s.parties.client.clntConn = true := hserves.conn (by simp [hprompt])
    (by simp [hprompt])
  have hgranted : r.granted = s.parties.client.clntAuth := by
    rw [← hserves.outcome]
    rfl
  simp only [store]
  cases hentered : s.parties.client.entered (parserCmd text) with
  | none =>
    simp only [Session.reads, hentered] at htakes
    exact htakes.elim
  | some entered =>
    obtain ⟨henter, hfollows⟩ := enter_eq hconn hgranted hzero hentered
    simp only [Session.reads, hentered, Option.map_some] at htakes ⊢
    cases entered with
    | none =>
      rw [henter]
      exact ⟨.quiet late, up, down, hserves, hup, hdown⟩
    | some cmd =>
      obtain ⟨⟨-, -, hissued, hsmall⟩, hbrief⟩ := htakes
      obtain ⟨st', hserves'⟩ := hserves.command (hfollows cmd rfl) hissued hsmall
      rw [henter]
      exact clientSends_serves hserves' hup hdown (Client.command_sendable hbrief).fits

def Remote.after (r : Remote) : Input → Remote
  | .line text => r.enter text
  | _ => r

theorem Session.Serves.step (h : s.Serves here there r) (hi : (store here there).enabled s inp) :
    ((store here there).next s inp).Serves here there (r.after inp) := by
  cases inp with
  | line text => exact h.line hi
  | serverRead listing after b =>
    refine h.next id hi.2.1 hi.2.2 ?_
    rintro e b ⟨⟩
    rfl
  | _ => exact h.next id hi.2.1 hi.2.2 (by simp)

theorem Session.Serves.play {is : List Input} (h : s.Serves here there r)
    (his : (store here there).Playable s is) :
    ((store here there).play s is).Serves here there ((typedLines is).foldl Remote.enter r) := by
  induction is generalizing s r with
  | nil => exact h
  | cons inp is ih =>
    have hrest := ih (h.step his.1) his.2
    cases inp <;> exact hrest

theorem start_serves (here there : Disk) (buff : Buffer 4096) :
    (Session.start buff).Serves here there ⟨false, false, here, there⟩ := by
  obtain ⟨up, down, htracks, hup, hdown⟩ := start_at buff
  have hup_eq : up = [.openConnRequest] := htracks.up_eq
  have hdown_eq : down = [] := htracks.down_eq
  subst hup_eq hdown_eq
  exact ⟨_, _, _, .start buff, hup, hdown⟩

/-- At a boundary the programs have done what was typed. -/
theorem Session.Serves.boundary (h : s.Serves here there r) (hb : s.Boundary) :
    s.remote here there = r := by
  obtain ⟨st, up, down, hserves, -, -⟩ := h
  rw [← hserves.outcome]
  rcases hserves.tracks.boundary hb.1 hb.2.2.1 with rfl | rfl
  · have hprompt : s.parties.client.phase = .prompt := hserves.tracks.client
    simp [Session.remote, Stage.outcome, Remote.settle, Parties.remote, Session.here,
      Session.there, hprompt]
  · have hstopped : s.parties.client.phase = .stopped := hserves.tracks.client
    simp [Session.remote, Stage.outcome, Parties.remote, Session.here, Session.there, hstopped]

/-- Whatever is typed, and however the calls of the two programs are interleaved and the bytes are
cut into pieces: whenever both are back in their loops with nothing to write, the login and the
files on both sides are what the lines say, one after the other. -/
theorem store_refines (here there : Disk) (buff : Buffer 4096) (is : List Input)
    (his : (store here there).Playable (.start buff) is)
    (hb : ((store here there).play (.start buff) is).Boundary) :
    ((store here there).play (.start buff) is).remote here there =
      (typedLines is).foldl Remote.enter ⟨false, false, here, there⟩ :=
  ((start_serves here there buff).play his).boundary hb

def oneFile : Disk := ⟨fun _ ↦ 0, fun _ ↦ some [1, 2, 3]⟩

def noFiles : Disk := ⟨fun _ ↦ 0, fun _ ↦ none⟩

def login : List Input :=
  [.clientWrite 12, .serverRead none [] 12, .serverWrite 12, .clientRead 12, .serverInit,
    .line (authWord ++ 0x20 :: uid ++ 0x20 :: pass), .clientWrite 24, .serverRead none [] 12,
    .serverRead none [] 12, .serverWrite 12, .clientRead 12]

def putOne : List Input :=
  login ++ [.line (putWord ++ [0x20, 0x61]), .clientWrite 14, .serverRead none [] 12,
    .serverRead none [] 2, .serverWrite 12, .clientRead 12, .clientWrite 10, .clientWrite 5,
    .serverRead none [] 12, .serverRead none [] 3]

theorem store_refines_putOne :
    ((store oneFile noFiles).play (.start (.zeroed 4096)) putOne).remote oneFile noFiles =
      (typedLines putOne).foldl Remote.enter ⟨false, false, oneFile, noFiles⟩ ∧
    ((typedLines putOne).foldl Remote.enter
      ⟨false, false, oneFile, noFiles⟩).there.read [0x61] = some [1, 2, 3] :=
  ⟨store_refines oneFile noFiles (.zeroed 4096) putOne (by decide) (by decide), by decide⟩

end Refinement

section Completion

variable {here there : Disk} {r : Remote} {s : Session} {st : Stage} {inp : Input}
  {is : List Input}

/-- Until a boundary is reached, one of the programs can go on, whatever files there are. -/
theorem Session.Serves.progress (h : s.Serves here there r) (hthere : there.Small)
    (hb : ¬ s.Boundary) : ∃ inp, ¬ inp.IsLine ∧ (store here there).enabled s inp := by
  obtain ⟨st, hat⟩ := h.at
  obtain ⟨i, hi, hmodest, hcommand⟩ := hat.progress.resolve_left hb
  cases i with
  | command disk cmd => exact absurd trivial hcommand
  | clientWrite b => exact ⟨.clientWrite b, id, trivial, hi, hmodest⟩
  | clientRead b => exact ⟨.clientRead b, id, trivial, hi, hmodest⟩
  | serverWrite b => exact ⟨.serverWrite b, id, trivial, hi, hmodest⟩
  | serverInit => exact ⟨.serverInit, id, trivial, hi, hmodest⟩
  | serverRead e b =>
    obtain ⟨hstopped, hlost, hdue, hout, hread, -⟩ := hi
    obtain ⟨st, up, down, hserves, -, -⟩ := h
    have hsmall : (s.there there).Small := by
      refine hthere.writes fun file hfile ↦ hserves.small file ?_
      rw [hserves.tracks.toServer]
      exact List.mem_append_left _ hfile
    have hlist : 0 ∈ (getFileList s.parties.server.buff (some [0])).bytes := by
      simp [getFileList, Buffer.fill]
    exact ⟨.serverRead (some [0]) [] b, id, trivial, ⟨hstopped, hlost, hdue, hout, hread,
      fun _ _ _ file hfile ↦ hsmall _ file hfile⟩, fun _ _ _ ↦ hlist⟩

end Completion

end NetworkingLabs.Ftp
