import NetworkingLabs.FtpStoreRuns

/-!
# What the FTP client guards

The server acts on every request. Its own client sends the requests only to a server that has
passed the right credentials, so with that client nothing is done to files without them.
-/
namespace NetworkingLabs.Ftp

section Watching

def Session.serves (here there : Disk) (s : Session) (inp : Input) : List Arrival :=
  match s.reads here there inp with
  | some (some (.serverRead e b)) => (s.up.arrives dgrams b).toList.map (e, ·)
  | _ => []

def arrivals (here there : Disk) : Session → List Input → List Arrival
  | _, [] => []
  | s, inp :: is =>
    s.serves here there inp ++ arrivals here there ((store here there).next s inp) is

/-- The server and the one that is watched are in one state, but for a pending `initConn`, and
whenever it has passed credentials, these were right. -/
structure Watched (s : Session) (a : Access) : Prop where
  server : a.server =
    if s.parties.server.initDue then s.parties.server.initConn else s.parties.server
  granted : a.server.authPass = true → a.granted = true
  guarded : a.Guarded

variable {here there : Disk} {r : Remote} {s : Session} {a : Access} {st : Stage} {p : Parties}
  {up down : List Datagram} {e : Surroundings} {d : Datagram} {inp : Input} {is : List Input}

private theorem watched_start (buff : Buffer 4096) : Watched (.start buff) (.start buff) where
  server := rfl
  granted := fun h ↦ absurd h Bool.false_ne_true
  guarded := (start_accessInv buff).guarded

theorem Serves.acting (h : Serves here there r st p (d :: up) down)
    (hacts : (p.server.handle e d).actions ≠ []) : st.Acting := by
  have hup := h.tracks.up_eq
  have hserver := h.tracks.server
  have hharm := mt handle_actions_eq_nil_iff.mpr hacts
  cases st with
  | quiet late =>
    cases late with
    | none => cases hup
    | some file => rfl
  | asked a late =>
    cases late with
    | none =>
      cases hup
      have hreq : p.server.phase = .request := hserver
      cases a with
      | ls => exact .inr trivial
      | get filename => exact .inr trivial
      | put filename contents => exact .inr trivial
      | _ => exact absurd (by simp +decide [Access.Harmless, hreq, Datagram.openConnRequest,
          Datagram.authRequest, Datagram.quitRequest, Datagram.ofString]) hharm
    | some file => exact .inl rfl
  | answered a => cases hup
  | ended => cases hup

theorem Ask.eq_auth_of_type (a : Ask) (h : a.request.type = authRequest) :
    ∃ auth, a = .auth auth := by
  cases a with
  | auth auth => exact ⟨auth, rfl⟩
  | get filename =>
    have hne : getRequest ≠ authRequest := by decide
    exact absurd h hne
  | put filename contents =>
    have hne : putRequest ≠ authRequest := by decide
    exact absurd h hne
  | openConn | ls | quit => exact absurd h (by decide)

/-- What the server takes for credentials is two words that were typed. -/
theorem Serves.credentials_taken (h : Serves here there r st p (d :: up) down)
    (htype : d.type = authRequest) :
    ∃ auth, e.string d.payload = cString auth ∧ 2 ≤ (words (cString auth)).length := by
  have hup := h.tracks.up_eq
  have hfile : Ftp.fileData ≠ authRequest := by decide
  cases st with
  | quiet late =>
    cases late with
    | none => cases hup
    | some file =>
      cases hup
      exact absurd htype hfile
  | asked a late =>
    cases late with
    | none =>
      cases hup
      obtain ⟨auth, rfl⟩ := a.eq_auth_of_type htype
      exact ⟨auth, string_ofString e _ _ auth, (h.credentials auth none rfl).1⟩
    | some file =>
      cases hup
      exact absurd htype hfile
  | answered a => cases hup
  | ended => cases hup

/-- While the server is about to act, it has passed credentials. -/
theorem Serves.authPass (h : Serves here there r st p up down) (hdue : p.server.initDue = false)
    (hacting : st.Acting) : p.server.authPass = true := by
  have hheld := h.held hacting
  have hagrees := h.tracks.agrees
  have hknows : p.server.knows = p.server.authPass := by simp [Server.knows, hdue]
  rw [← hknows]
  cases st with
  | quiet late => exact hagrees.symm.trans hheld
  | asked a late => exact hagrees.symm.trans hheld
  | answered a =>
    cases a with
    | put filename contents => exact hagrees.symm.trans hheld
    | _ => exact hacting.elim
  | ended => exact hacting.elim

theorem Serves.watch (h : Serves here there r st p (d :: up) down)
    (hdue : p.server.initDue = false) (hserver : a.server = p.server)
    (hgranted : a.server.authPass = true → a.granted = true) :
    (a.next (e, d)).server.authPass = true → (a.next (e, d)).granted = true := by
  by_cases hother : p.server.phase = .request → d.type ≠ openConnRequest ∧ d.type ≠ authRequest
  · obtain ⟨hpass, hsame⟩ := handle_authPass (e := e) hother
    have hkept : a.grants (e, d) = a.granted := by
      by_cases hs : p.server.phase = .request
      · simp [Access.grants, hserver, hs, hother hs]
      · simp [Access.grants, hserver, hs]
    rw [hdue] at hsame
    simp only [Access.next, hserver, hsame, hkept, Bool.false_eq_true, if_false, hpass]
    rwa [hserver] at hgranted
  · obtain ⟨hs, htype⟩ : p.server.phase = .request ∧
        (d.type = openConnRequest ∨ d.type = authRequest) := by
      simpa [or_iff_not_imp_left] using hother
    rcases htype with hopen | hauth
    · simp [Access.next, hserver, Server.handle_openConnRequest hs hopen, Server.initConn]
    · obtain ⟨auth, hstring, hwords⟩ := h.credentials_taken (e := e) hauth
      have hloop : (p.server.check (cString auth)).loop.initDue = false := hdue
      simp only [Access.next, hserver, Server.handle_authRequest hs hauth, hstring, hloop]
      intro hpass
      have hright : rightCredentials (cString auth) = true :=
        (rightCredentials_iff auth).mpr ((check_authPass hwords).mp hpass)
      simp [Access.grants, hserver, hs, hauth, hstring, hright]
      decide

theorem Serves.guarded (h : Serves here there r st p (d :: up) down)
    (hdue : p.server.initDue = false) (hserver : a.server = p.server)
    (hgranted : a.server.authPass = true → a.granted = true) (hguarded : a.Guarded) :
    (a.next (e, d)).Guarded := by
  intro x hx
  rcases List.mem_append.mp hx with hx | hx
  · exact hguarded x hx
  · obtain ⟨action, haction, rfl⟩ := List.mem_map.mp hx
    rw [hserver] at haction
    have hpass : a.server.authPass = true := by
      rw [hserver]
      exact h.authPass hdue (h.acting (List.ne_nil_of_mem haction))
    exact ⟨hgranted hpass, hpass⟩

private theorem clientSends_server (s : Session) (x : Parties × List Datagram) :
    (s.clientSends x).parties.server = x.1.server := by
  rw [Session.clientSends]
  cases sendAll s.up x.2 <;> rfl

private theorem serverSends_server {x : Parties × List Datagram}
    (hdown : s.down.Carries dgrams down)
    (hfits : ∀ d ∈ x.2, d.Fits) : (s.serverSends x).parties.server = x.1.server := by
  obtain ⟨c, hsend, -, -⟩ := sendAll_carries hdown hfits
  rw [Session.serverSends, hsend]

private theorem next_clientRead_server (s : Session) (b : ℕ) :
    (s.next (.clientRead b)).parties.server = s.parties.server := by
  rw [Session.next]
  cases harr : s.down.arrives dgrams b with
  | none => rfl
  | some reply => exact clientSends_server _ _

private theorem next_line_server (here there : Disk) (s : Session) (text : List UInt8) :
    ((store here there).next s (.line text)).parties.server = s.parties.server := by
  simp only [store, Session.reads]
  cases hentered : s.parties.client.entered (parserCmd text) with
  | none => rfl
  | some entered =>
    cases entered with
    | none => rfl
    | some cmd => exact clientSends_server s _

theorem Watched.of_server {s' : Session} (h : Watched s a)
    (hserver : s'.parties.server = s.parties.server) : Watched s' a :=
  ⟨by rw [hserver]; exact h.server, h.granted, h.guarded⟩

theorem Watched.step (h : Watched s a) (hs : s.Serves here there r)
    (hi : (store here there).enabled s inp) :
    Watched ((store here there).next s inp) (accesses.play a (s.serves here there inp)) := by
  obtain ⟨-, htakes⟩ := hi
  obtain ⟨st, up, down, hserves, hup, hdown⟩ := hs
  cases inp with
  | line text =>
    have hnone : s.serves here there (.line text) = [] := by
      rw [Session.serves, Session.reads]
      rcases s.parties.client.entered (parserCmd text) with _ | _ | cmd <;> rfl
    rw [hnone]
    exact h.of_server (next_line_server here there s text)
  | clientWrite b => exact h.of_server rfl
  | serverWrite b => exact h.of_server rfl
  | clientRead b => exact h.of_server (next_clientRead_server s b)
  | serverInit =>
    refine ⟨?_, h.granted, h.guarded⟩
    have hdue : s.parties.server.initDue = true := htakes.1.1
    have hserver := h.server
    rw [hdue, if_pos rfl] at hserver
    exact hserver
  | serverRead listing after b =>
    obtain ⟨⟨-, -, hdue, -, hb, -⟩, -⟩ := htakes
    have hserver := h.server
    rw [hdue, if_neg Bool.false_ne_true] at hserver
    rcases hup.read hb with ⟨d, up', rfl, harr, -⟩ | ⟨harr, -⟩
    · simp only [store, Session.serves, Session.reads, Session.next, harr, Option.toList_some,
        List.map_cons, List.map_nil]
      refine ⟨?_, hserves.watch hdue hserver h.granted,
        hserves.guarded hdue hserver h.granted h.guarded⟩
      rw [serverSends_server (s := { s with up := s.up.read dgrams b })
        (x := s.parties.serverTakes _ d) hdown (handle_sendable _ _ d).fits]
      simp only [Parties.serverTakes, ← hserver]
      rfl
    · simp only [store, Session.serves, Session.reads, Session.next, harr]
      exact h.of_server rfl

theorem Watched.play (h : Watched s a) (hs : s.Serves here there r)
    (his : (store here there).Playable s is) :
    Watched ((store here there).play s is) (accesses.play a (arrivals here there s is)) := by
  induction is generalizing s a r with
  | nil => exact h
  | cons inp is ih =>
    rw [arrivals, TransitionSystem.play_append]
    exact ih (h.step hs his.1) (hs.step his.1) his.2

/-- Whatever is typed at the prompt, and however the calls of the two programs are interleaved: all
that the server lists, sends and writes, it does after the right credentials and no wrong ones
since the last OPEN_CONN_REQUEST, with `auth_pass` true. -/
theorem client_guards (here there : Disk) (buff : Buffer 4096) (is : List Input)
    (his : (store here there).Playable (.start buff) is) :
    accesses.Throughout Access.Guarded (.start buff) (arrivals here there (.start buff) is) := by
  have hback : ∀ a i, (accesses.next a i).Guarded → a.Guarded :=
    fun _ _ h x hx ↦ h x (List.mem_append_left _ hx)
  rw [TransitionSystem.throughout_iff_play hback]
  exact ((watched_start buff).play (start_serves here there buff) his).guarded

theorem client_guards_putOne :
    accesses.Throughout Access.Guarded (.start (.zeroed 4096))
      (arrivals oneFile noFiles (.start (.zeroed 4096)) putOne) ∧
    (accesses.play (.start (.zeroed 4096))
      (arrivals oneFile noFiles (.start (.zeroed 4096)) putOne)).deeds =
        [⟨.write [0x61] [1, 2, 3], true, true⟩] :=
  ⟨client_guards oneFile noFiles (.zeroed 4096) putOne (by decide), by decide⟩

end Watching

end NetworkingLabs.Ftp
