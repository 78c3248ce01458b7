import NetworkingLabs.FtpServer
import NetworkingLabs.TransitionSystem

/-!
# Access control of the FTP server

The server keeps `auth_pass` but never looks at it: what it does to files is guarded only as
far as its clients hold back their requests.
-/
namespace NetworkingLabs.Ftp

section Monitor

def rightCredentials (auth : List UInt8) : Bool :=
  let (user, sstr) := extract [] auth
  let (password, _) := extract [] sstr
  user = uid && password = pass

/-- Something done to files, with whether the right credentials had been given by then and what
`auth_pass` was. -/
structure Deed where
  action : Action
  granted : Bool
  authPass : Bool
  deriving DecidableEq

/-- The server, and beside it whether the right credentials have been given since the last
OPEN_CONN_REQUEST and no wrong ones after them. -/
structure Access where
  server : Server
  granted : Bool
  deeds : List Deed
  deriving DecidableEq

abbrev Arrival := Surroundings × Datagram

namespace Access

def grants (a : Access) (i : Arrival) : Bool :=
  let auth := i.1.string i.2.payload
  if a.server.phase ≠ .request then a.granted
  else if i.2.type = openConnRequest then false
  else if i.2.type = authRequest then
    rightCredentials auth || (a.granted && (a.server.check auth).authPass)
  else a.granted

def next (a : Access) (i : Arrival) : Access :=
  let turn := a.server.handle i.1 i.2
  { server := if turn.party.initDue then turn.party.initConn else turn.party
    granted := a.grants i
    deeds := a.deeds ++ turn.actions.map (⟨·, a.granted, a.server.authPass⟩) }

def start (buff : Buffer 4096) : Access := ⟨.start buff, false, []⟩

def Guarded (a : Access) : Prop := ∀ x ∈ a.deeds, x.granted = true ∧ x.authPass = true

/-- A datagram that the server would not act on although it looks at no `auth_pass`. -/
def Harmless (s : Server) (i : Arrival) : Prop :=
  match s.phase with
  | .stopped | .lost => True
  | .file _ => False
  | .request => i.2.type ≠ listRequest ∧ (i.2.type = getRequest →
      ∀ file ∈ i.1.disk (i.1.string i.2.payload), fileBufSize ≤ file.length)

/-- The client holds back what it has no right to. -/
def Permitted (a : Access) (i : Arrival) : Prop := a.granted = true ∨ Harmless a.server i

end Access

def accesses : TransitionSystem Access Arrival where
  init a := ∃ buff, a = .start buff
  enabled _ _ := True
  next := Access.next

end Monitor

section Guard

variable {a : Access} {s : Server} {i : Arrival} {e : Surroundings} {rev : Datagram}

private theorem extract_nil_ne {old sstr : List UInt8} (h : (extract [] sstr).1 ≠ []) :
    extract old sstr = extract [] sstr := by
  by_cases hword : (sstr.dropWhile isSpace).takeWhile (!isSpace ·) = []
  · simp [extract, hword] at h
  · simp [extract, hword]

private theorem check_rightCredentials {auth : List UInt8} (h : rightCredentials auth = true) :
    (s.check auth).authPass = true := by
  have hwords : (extract [] auth).1 = uid ∧ (extract [] (extract [] auth).2).1 = pass := by
    simpa [rightCredentials] using h
  obtain ⟨huser, hpass⟩ := hwords
  have hiuid : extract s.iuid auth = extract [] auth :=
    extract_nil_ne (by rw [huser]; decide)
  have hipass : extract s.ipass (extract [] auth).2 = extract [] (extract [] auth).2 :=
    extract_nil_ne (by rw [hpass]; decide)
  simp only [Server.check, hiuid, hipass, huser, hpass]
  decide

theorem handle_actions_eq_nil_iff :
    (s.handle e rev).actions = [] ↔ Access.Harmless s (e, rev) := by
  cases hs : s.phase with
  | stopped => simp [Server.handle, Access.Harmless, hs]
  | lost => simp [Server.handle, Access.Harmless, hs]
  | file filepath => simp [Server.handle_file hs, Access.Harmless, hs]
  | request =>
    by_cases hlist : rev.type = listRequest
    · rw [Server.handle_listRequest hs hlist]
      split <;> simp [Access.Harmless, hs, hlist]
    · by_cases hget : rev.type = getRequest
      · rw [Server.handle_getRequest hs hget]
        cases hdisk : e.disk (e.string rev.payload) with
        | none => simp [Access.Harmless, hs, hlist, hdisk]
        | some file =>
          rcases Nat.lt_or_ge file.length fileBufSize with hsmall | hlarge
          · simp [Access.Harmless, hs, hget, hdisk, upload_small hsmall, hsmall]
          · simp [Access.Harmless, hs, hget, hdisk, upload_large hlarge, hlarge]
            decide
      · simp [Server.handle, Access.Harmless, hs, hlist, hget]
        split_ifs <;> rfl

/-- Only OPEN_CONN_REQUEST and AUTH_REQUEST change what the server knows of its client. -/
theorem handle_authPass (h : s.phase = .request →
    rev.type ≠ openConnRequest ∧ rev.type ≠ authRequest) :
    (s.handle e rev).party.authPass = s.authPass ∧
      (s.handle e rev).party.initDue = s.initDue := by
  rw [Server.handle_party]
  by_cases hs : s.phase = .request
  · obtain ⟨hopen, hauth⟩ := h hs
    simp only [if_neg (not_not.mpr hs), if_neg hopen, if_neg hauth]
    split_ifs <;> exact ⟨rfl, rfl⟩
  · simp only [if_pos hs]
    exact ⟨trivial, trivial⟩

structure AccessInv (a : Access) : Prop where
  initDue : a.server.initDue = false
  granted : a.granted = true → a.server.authPass = true
  guarded : a.Guarded

theorem start_accessInv (buff : Buffer 4096) : AccessInv (.start buff) :=
  ⟨rfl, fun h ↦ absurd h Bool.false_ne_true, fun x hx ↦ absurd hx (by simp [Access.start])⟩

/-- What the server knows follows the credentials that were given. -/
theorem AccessInv.next_granted (h : AccessInv a) (i : Arrival) :
    (a.next i).server.initDue = false ∧
      ((a.next i).granted = true → (a.next i).server.authPass = true) := by
  obtain ⟨e, rev⟩ := i
  by_cases hother : a.server.phase = .request → rev.type ≠ openConnRequest ∧ rev.type ≠ authRequest
  · obtain ⟨hpass, hdue⟩ := handle_authPass (e := e) hother
    have hkept : a.grants (e, rev) = a.granted := by
      by_cases hs : a.server.phase = .request
      · simp [Access.grants, hs, hother hs]
      · simp [Access.grants, hs]
    rw [h.initDue] at hdue
    simp only [Access.next, hdue, hkept, Bool.false_eq_true, if_false, hpass]
    exact ⟨trivial, h.granted⟩
  · obtain ⟨hs, htype⟩ : a.server.phase = .request ∧
        (rev.type = openConnRequest ∨ rev.type = authRequest) := by
      simpa [or_iff_not_imp_left] using hother
    rcases htype with hopen | hauth
    · simp [Access.next, Access.grants, Server.handle_openConnRequest hs hopen, hs, hopen,
        Server.initConn]
    · have hdue : (a.server.check (e.string rev.payload)).loop.initDue = false := h.initDue
      simp only [Access.next, Server.handle_authRequest hs hauth, hdue]
      refine ⟨hdue, fun hgranted ↦ ?_⟩
      have hor : rightCredentials (e.string rev.payload) = true ∨
          a.granted = true ∧ (a.server.check (e.string rev.payload)).authPass = true := by
        simpa +decide [Access.grants, hs, hauth] using hgranted
      rcases hor with hright | ⟨-, hpass⟩
      · exact check_rightCredentials hright
      · exact hpass

theorem AccessInv.next (h : AccessInv a) (hi : a.Permitted i) : AccessInv (a.next i) := by
  obtain ⟨hdue, hgranted⟩ := h.next_granted i
  refine ⟨hdue, hgranted, fun x hx ↦ ?_⟩
  rcases List.mem_append.mp hx with hx | hx
  · exact h.guarded x hx
  · obtain ⟨action, haction, rfl⟩ := List.mem_map.mp hx
    rcases hi with hg | hharmless
    · exact ⟨hg, h.granted hg⟩
    · rw [handle_actions_eq_nil_iff.mpr hharmless] at haction
      cases haction

theorem permitted_of_guarded (h : (a.next i).Guarded) : a.Permitted i := by
  rw [Access.Permitted, or_iff_not_imp_right]
  intro hharm
  obtain ⟨action, haction⟩ : ∃ action, action ∈ (a.server.handle i.1 i.2).actions :=
    List.exists_mem_of_ne_nil _ (mt handle_actions_eq_nil_iff.mp hharm)
  exact (h ⟨action, a.granted, a.server.authPass⟩
    (List.mem_append_right _ (List.mem_map_of_mem haction))).1

/-- Over any datagrams, everything that the server does to files is granted by right credentials
exactly if its client never sends LIST_REQUEST, GET_REQUEST for a file that can be sent, or a
file, without having been granted access. -/
theorem access_guarded_iff (buff : Buffer 4096) (is : List Arrival) :
    accesses.Throughout Access.Guarded (.start buff) is ↔
      accesses.Meets Access.Permitted (.start buff) is :=
  TransitionSystem.throughout_iff_meets (I := AccessInv) (fun _ h ↦ h.guarded)
    (fun _ _ h hi ↦ h.next hi) (fun _ _ _ h ↦ permitted_of_guarded h) (start_accessInv buff) is

/-- The directory is listed for a client that has given no credentials at all. -/
theorem access_listed : ¬ accesses.Throughout Access.Guarded (.start (.zeroed 4096))
    [(⟨fun _ ↦ none, none, []⟩, .listRequest)] := by
  intro h
  have hdeed : (⟨.list, false, false⟩ : Deed) ∈
      ((Access.start (.zeroed 4096)).next (⟨fun _ ↦ none, none, []⟩, .listRequest)).deeds := by
    rw [Access.next, Server.handle_listRequest rfl rfl]
    split <;> exact List.mem_singleton_self _
  exact absurd (h.2 _ hdeed).1 (by decide)

end Guard

end NetworkingLabs.Ftp
