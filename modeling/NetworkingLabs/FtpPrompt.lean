import NetworkingLabs.FtpAccess
import NetworkingLabs.FtpClient
import NetworkingLabs.FtpCredentials

/-!
# The prompt of the FTP client

A line is split into words, and the words say what the client does next. A word that the line
lacks is looked for past the end of a vector, unless the client turns the command down before.
-/
namespace NetworkingLabs.Ftp

section Lines

inductive CmdType
  | unknown
  | openConn
  | auth
  | ls
  | get
  | put
  | quit
  deriving DecidableEq

def openWord : List UInt8 := [0x6f, 0x70, 0x65, 0x6e]

def authWord : List UInt8 := [0x61, 0x75, 0x74, 0x68]

def lsWord : List UInt8 := [0x6c, 0x73]

def getWord : List UInt8 := [0x67, 0x65, 0x74]

def putWord : List UInt8 := [0x70, 0x75, 0x74]

def quitWord : List UInt8 := [0x71, 0x75, 0x69, 0x74]

/-- `while(ss>>tem)` for so many turns at most. -/
def parserLoop : ℕ → List UInt8 → List (List UInt8)
  | 0, _ => []
  | turns + 1, ss =>
    let (tem, ss) := extract [] ss
    if tem = [] then [] else tem :: parserLoop turns ss

def parserCmd (cmd : List UInt8) : List (List UInt8) := parserLoop (cmd.length + 1) cmd

/-- The type of a command is decided by its first word, which is compared with `auth` twice. -/
def checkCmd : List (List UInt8) → CmdType
  | [] => .unknown
  | word :: _ =>
    if word = openWord then .openConn
    else if word = authWord then .auth
    else if word = authWord then .auth
    else if word = lsWord then .ls
    else if word = getWord then .get
    else if word = putWord then .put
    else if word = quitWord then .quit
    else .unknown

/-- What the words make the client do after its first `open`, or `some none` where it is back at
its prompt at once; `none` reads past the end of `cmd`. -/
def Client.entered (c : Client) (cmd : List (List UInt8)) : Option (Option Command) :=
  match checkCmd cmd with
  | .unknown => some none
  -- the address is looked at only without a connection
  | .openConn => some (some .openConn)
  | .auth =>
    if !c.clntConn then some none
    else if c.clntAuth then some none
    else do
      let user ← cmd[1]?
      let password ← cmd[2]?
      some (some (.auth user password))
  | .ls => if !c.checkAuth then some none else some (some .ls)
  | .quit => some (some .quit)
  | .get =>
    if !c.checkAuth then some none
    else do
      let filename ← cmd[1]?
      some (some (.get filename))
  | .put =>
    if !c.checkAuth then some none
    else do
      let filename ← cmd[1]?
      some (some (.put filename))

inductive Names : List UInt8 → CmdType → Prop
  | openConn : Names openWord .openConn
  | auth : Names authWord .auth
  | ls : Names lsWord .ls
  | get : Names getWord .get
  | put : Names putWord .put
  | quit : Names quitWord .quit
  | unknown {word : List UInt8}
    (h : word ∉ [openWord, authWord, lsWord, getWord, putWord, quitWord]) : Names word .unknown

theorem names_checkCmd (word : List UInt8) (args : List (List UInt8)) :
    Names word (checkCmd (word :: args)) := by
  by_cases hmem : word ∈ [openWord, authWord, lsWord, getWord, putWord, quitWord]
  · simp only [List.mem_cons, List.not_mem_nil, or_false] at hmem
    rcases hmem with rfl | rfl | rfl | rfl | rfl | rfl
    · exact .openConn
    · exact .auth
    · exact .ls
    · exact .get
    · exact .put
    · exact .quit
  · have hunknown : checkCmd (word :: args) = .unknown := by
      simp only [List.mem_cons, List.not_mem_nil, or_false, not_or] at hmem
      simp only [checkCmd, hmem, if_false]
    rw [hunknown]
    exact .unknown hmem

end Lines

section Words

variable {line ss : List UInt8} {turns : ℕ}

private theorem length_words_le (sstr : List UInt8) : (words sstr).length ≤ sstr.length + 1 := by
  have hpieces : (sstr.splitOnP isSpace).length ≤ sstr.length + 1 := by
    induction sstr with
    | nil => exact Nat.le_refl 1
    | cons b sstr ih =>
      rw [List.splitOnP_cons_eq_if_modifyHead, List.length_cons]
      split
      · exact Nat.succ_le_succ ih
      · rw [List.length_modifyHead]
        exact Nat.le_succ_of_le ih
  exact (List.length_filter_le _ _).trans hpieces

private theorem parserLoop_eq_words (h : (words ss).length ≤ turns) :
    parserLoop turns ss = words ss := by
  induction turns generalizing ss with
  | zero => rw [parserLoop, List.eq_nil_of_length_eq_zero (Nat.le_zero.mp h)]
  | succ turns ih =>
    obtain ⟨hfirst, hrest⟩ := extract_words [] ss
    simp only [parserLoop]
    cases hwords : words ss with
    | nil => rw [if_pos (by rw [hfirst, hwords]; rfl)]
    | cons word rest =>
      rw [hwords] at hfirst hrest h
      have hne : word ≠ [] := by
        have hmem : word ∈ words ss := hwords ▸ List.mem_cons_self
        simpa using (List.mem_filter.mp hmem).2
      have hfewer : (words (extract [] ss).2).length ≤ turns := by
        rw [hrest]
        exact Nat.le_of_succ_le_succ h
      rw [if_neg (by rw [hfirst]; exact hne), ih hfewer, hrest, hfirst]
      rfl

/-- `Parser_cmd` splits the line into its words. -/
theorem parserCmd_eq_words (line : List UInt8) : parserCmd line = words line :=
  parserLoop_eq_words (length_words_le line)

private theorem isSpace_of_mem_splitOnP {piece : List UInt8} (h : piece ∈ ss.splitOnP isSpace) :
    ∀ b ∈ piece, isSpace b = false := by
  induction ss generalizing piece with
  | nil =>
    rw [List.splitOnP_nil, List.mem_singleton] at h
    rw [h]
    exact List.forall_mem_nil _
  | cons x ss ih =>
    rw [List.splitOnP_cons_eq_if_modifyHead] at h
    intro b hb
    split at h
    · rcases List.mem_cons.mp h with rfl | h
      · cases hb
      · exact ih h b hb
    · next hx =>
      cases hpieces : ss.splitOnP isSpace with
      | nil => exact absurd hpieces (List.splitOnP_ne_nil isSpace ss)
      | cons first pieces =>
        rw [hpieces] at h ih
        rcases List.mem_cons.mp h with rfl | h
        · rcases List.mem_cons.mp hb with rfl | hb
          · exact eq_false_of_ne_true hx
          · exact ih (.head pieces) b hb
        · exact ih (.tail first h) b hb

structure Typed (word : List UInt8) : Prop where
  ne_nil : word ≠ []
  space : ∀ b ∈ word, isSpace b = false
  zero : (0 : UInt8) ∉ word

theorem typed_of_mem_words {word : List UInt8} (hzero : (0 : UInt8) ∉ line)
    (h : word ∈ words line) : Typed word where
  ne_nil := by simpa using (List.mem_filter.mp h).2
  space := isSpace_of_mem_splitOnP (List.mem_filter.mp h).1
  zero := fun h0 ↦ hzero (mem_words h 0 h0)

variable {user password : List UInt8}

theorem words_credentials (huser : Typed user) (hpassword : Typed password) :
    words (cString (user ++ 0x20 :: password)) = [user, password] := by
  have hzero : (0 : UInt8) ∉ user ++ 0x20 :: password := by
    simp [huser.zero, hpassword.zero]
  have hsecond : words password = [password] := by
    have happend : words (password ++ []) = password :: words [] :=
      words_append hpassword.ne_nil hpassword.space (by simp)
    rwa [List.append_nil] at happend
  rw [cString_eq_self hzero, words_append huser.ne_nil huser.space (by simp +decide),
    words_space (by decide), hsecond]

theorem check_authPass {s : Server} {payload : List UInt8}
    (h : 2 ≤ (words (cString payload)).length) :
    (s.check (cString payload)).authPass = true ↔ Right payload := by
  obtain ⟨hiuid, hipass⟩ := check_words s payload
  have hpass : (s.check (cString payload)).authPass =
      (cString (s.check (cString payload)).iuid = uid &&
        cString (s.check (cString payload)).ipass = pass : Bool) := rfl
  have hword : ∀ word ∈ words (cString payload), cString word = word := fun word hword ↦
    cString_eq_self fun h0 ↦ zero_not_mem_cString payload (mem_words hword 0 h0)
  rw [hpass, hiuid, hipass, Right]
  generalize words (cString payload) = ws at h hword ⊢
  rcases ws with _ | ⟨first, _ | ⟨second, rest⟩⟩
  · exact absurd h (by decide)
  · exact absurd h (by simp)
  · simp [hword first (by simp), hword second (by simp)]

theorem rightCredentials_iff (payload : List UInt8) :
    rightCredentials (cString payload) = true ↔ Right payload := by
  obtain ⟨hfirst, hrest⟩ := extract_words [] (cString payload)
  obtain ⟨hsecond, -⟩ := extract_words [] (extract [] (cString payload)).2
  rw [hrest] at hsecond
  have hdef : rightCredentials (cString payload) =
      ((extract [] (cString payload)).1 = uid &&
        (extract [] (extract [] (cString payload)).2).1 = pass : Bool) := rfl
  rw [hdef, hfirst, hsecond, Right]
  rcases words (cString payload) with _ | ⟨first, _ | ⟨second, rest⟩⟩
  · decide
  · simp +decide
  · simp

end Words

end NetworkingLabs.Ftp
