import NetworkingLabs.FtpServer
import Mathlib.Data.List.TakeWhile

/-!
# Credentials left from earlier requests

`iuid` and `ipass` keep what they hold when a word is missing, so `auth_pass` is decided by all the
payloads that have come. The words that are left are looked up in the history.
-/
namespace NetworkingLabs.Ftp

section Words

def words (sstr : List UInt8) : List (List UInt8) := (sstr.splitOnP isSpace).filter (· ≠ [])

variable {sstr : List UInt8} {b : UInt8}

theorem words_space (hb : isSpace b = true) : words (b :: sstr) = words sstr := by
  rw [words, List.splitOnP_cons_eq_if_modifyHead, if_pos hb]
  rfl

private theorem words_dropWhile (sstr : List UInt8) :
    words (sstr.dropWhile isSpace) = words sstr := by
  induction sstr with
  | nil => rfl
  | cons b sstr ih =>
    by_cases hb : isSpace b = true
    · rw [List.dropWhile_cons_of_pos hb, ih, words_space hb]
    · rw [List.dropWhile_cons_of_neg hb]

theorem words_append {word : List UInt8} (hne : word ≠ []) (hword : ∀ b ∈ word, isSpace b = false)
    (hrest : ∀ b ∈ sstr.head?, isSpace b = true) : words (word ++ sstr) = word :: words sstr := by
  cases sstr with
  | nil =>
    rw [List.append_nil, words, List.splitOnP_eq_singleton hword]
    simp [hne, words]
  | cons b sstr =>
    rw [words_space (hrest b rfl), words,
      List.splitOnP_append_cons_of_forall_mem hword b (hrest b rfl),
      List.filter_cons_of_pos (by simpa using hne), words]

/-- `sstr >> old` takes the first word, or leaves `old` as it was. -/
theorem extract_words (old sstr : List UInt8) :
    (extract old sstr).1 = (words sstr).headD old ∧
      words (extract old sstr).2 = (words sstr).tail := by
  obtain ⟨t, ht⟩ : ∃ t, sstr.dropWhile isSpace = t := ⟨_, rfl⟩
  have hsame : words sstr = words t := by rw [← ht, words_dropWhile]
  have hhead : ∀ b ∈ t.head?, isSpace b = false := by
    intro b hb
    have hnot := List.head?_dropWhile_not isSpace sstr
    rw [ht, Option.mem_def.mp hb] at hnot
    simpa using hnot
  rw [extract, hsame]
  simp only [ht]
  cases t with
  | nil => exact ⟨rfl, rfl⟩
  | cons b t =>
    have hb := hhead b rfl
    have hne : (b :: t).takeWhile (!isSpace ·) ≠ [] := by
      rw [List.takeWhile_cons_of_pos (by simp [hb])]
      exact List.cons_ne_nil _ _
    have hword : ∀ x ∈ (b :: t).takeWhile (!isSpace ·), isSpace x = false := by
      intro x hx
      simpa using List.mem_takeWhile_imp hx
    have hrest : ∀ x ∈ ((b :: t).dropWhile (!isSpace ·)).head?, isSpace x = true := by
      intro x hx
      have hnot := List.head?_dropWhile_not (!isSpace ·) (b :: t)
      rw [Option.mem_def.mp hx] at hnot
      simpa using hnot
    have hfirst := words_append hne hword hrest
    rw [List.takeWhile_append_dropWhile] at hfirst
    rw [if_neg hne, hfirst]
    exact ⟨rfl, rfl⟩

private theorem mem_splitOnP {p : UInt8 → Bool} {piece : List UInt8} (h : piece ∈ sstr.splitOnP p) :
    ∀ b ∈ piece, b ∈ sstr := by
  induction sstr generalizing piece with
  | nil =>
    rw [List.splitOnP_nil, List.mem_singleton] at h
    rw [h]
    exact List.forall_mem_nil _
  | cons x sstr ih =>
    rw [List.splitOnP_cons_eq_if_modifyHead] at h
    intro b hb
    split at h
    · rcases List.mem_cons.mp h with rfl | h
      · cases hb
      · exact .tail x (ih h b hb)
    · cases hpieces : sstr.splitOnP p with
      | nil => exact absurd hpieces (List.splitOnP_ne_nil p sstr)
      | cons first pieces =>
        rw [hpieces] at h ih
        rcases List.mem_cons.mp h with rfl | h
        · rcases List.mem_cons.mp hb with rfl | hb
          · exact .head sstr
          · exact .tail x (ih (.head pieces) b hb)
        · exact .tail x (ih (.tail first h) b hb)

theorem mem_words {word : List UInt8} (h : word ∈ words sstr) : ∀ b ∈ word, b ∈ sstr :=
  mem_splitOnP (List.mem_filter.mp h).1

end Words

section History

/-- What comes between the start of the server and a request for authentication. -/
inductive Earlier
  | openConn
  | auth (payload : List UInt8)
  deriving DecidableEq

def Server.after (s : Server) : Earlier → Server
  | .openConn => s.initConn
  | .auth payload => s.check (cString payload)

def Earlier.payload : Earlier → Option (List UInt8)
  | .openConn => none
  | .auth payload => some payload

/-- The payloads that were checked, the latest first. -/
def checked (history : List Earlier) : List (List UInt8) :=
  history.reverse.filterMap Earlier.payload

def latestWord (k : ℕ) (payloads : List (List UInt8)) : List UInt8 :=
  (payloads.findSome? fun payload ↦ (words (cString payload))[k]?).getD []

def Right (payload : List UInt8) : Prop := (words (cString payload)).take 2 = [uid, pass]

instance (payload : List UInt8) : Decidable (Right payload) := inferInstanceAs (Decidable (_ = _))

variable {s : Server} {payload : List UInt8} {payloads : List (List UInt8)}
  {history : List Earlier}

private theorem latestWord_cons (k : ℕ) (payload : List UInt8) (payloads : List (List UInt8)) :
    latestWord k (payload :: payloads) =
      (words (cString payload))[k]?.getD (latestWord k payloads) := by
  rw [latestWord, List.findSome?_cons]
  cases (words (cString payload))[k]? <;> rfl

theorem check_words (s : Server) (payload : List UInt8) :
    (s.check (cString payload)).iuid = (words (cString payload))[0]?.getD s.iuid ∧
      (s.check (cString payload)).ipass = (words (cString payload))[1]?.getD s.ipass := by
  obtain ⟨hfirst, hrest⟩ := extract_words s.iuid (cString payload)
  obtain ⟨hsecond, -⟩ := extract_words s.ipass (extract s.iuid (cString payload)).2
  rw [hrest] at hsecond
  refine ⟨hfirst.trans ?_, hsecond.trans ?_⟩
  · cases words (cString payload) <;> rfl
  · rcases words (cString payload) with _ | ⟨first, _ | ⟨second, rest⟩⟩ <;> rfl

/-- The words that are kept are the latest ones that came. -/
structure Remembers (s : Server) (payloads : List (List UInt8)) : Prop where
  iuid : s.iuid = latestWord 0 payloads
  ipass : s.ipass = latestWord 1 payloads

theorem Remembers.check (h : Remembers s payloads) (payload : List UInt8) :
    Remembers (s.check (cString payload)) (payload :: payloads) := by
  obtain ⟨hiuid, hipass⟩ := check_words s payload
  exact ⟨by rw [hiuid, latestWord_cons, h.iuid], by rw [hipass, latestWord_cons, h.ipass]⟩

/-- Every event keeps what is remembered in step with the history. -/
theorem Remembers.after (h : Remembers s payloads) (e : Earlier) :
    Remembers (s.after e) (e.payload.toList ++ payloads) := by
  cases e with
  | openConn => exact ⟨h.iuid, h.ipass⟩
  | auth payload => exact h.check payload

theorem Remembers.foldl (h : Remembers s payloads) (history : List Earlier) :
    Remembers (history.foldl Server.after s) (checked history ++ payloads) := by
  induction history generalizing s payloads with
  | nil => exact h
  | cons e history ih =>
    have hchecked : checked (e :: history) = checked history ++ e.payload.toList := by
      rw [checked, List.reverse_cons, List.filterMap_append, checked]
      cases e <;> rfl
    rw [List.foldl_cons, hchecked, List.append_assoc]
    exact ih (h.after e)

private theorem remembers_start (buff : Buffer 4096) : Remembers (.start buff) [] := ⟨rfl, rfl⟩

private theorem cString_latestWord (k : ℕ) (payloads : List (List UInt8)) :
    cString (latestWord k payloads) = latestWord k payloads := by
  apply cString_eq_self
  induction payloads with
  | nil => exact List.not_mem_nil
  | cons payload payloads ih =>
    rw [latestWord_cons]
    cases hword : (words (cString payload))[k]? with
    | none => exact ih
    | some word =>
      intro hzero
      exact zero_not_mem_cString payload (mem_words (List.mem_of_getElem? hword) 0 hzero)

/-- The decision is about the latest words, wherever they came from. -/
theorem Remembers.authPass (h : Remembers s payloads) (payload : List UInt8) :
    (s.check (cString payload)).authPass = true ↔
      latestWord 0 (payload :: payloads) = uid ∧ latestWord 1 (payload :: payloads) = pass := by
  have hcheck := h.check payload
  have hpass : (s.check (cString payload)).authPass =
      (cString (s.check (cString payload)).iuid = uid &&
        cString (s.check (cString payload)).ipass = pass : Bool) := rfl
  rw [hpass, hcheck.iuid, hcheck.ipass, cString_latestWord, cString_latestWord, Bool.and_eq_true,
    decide_eq_true_eq, decide_eq_true_eq]

private theorem right_iff (h : 2 ≤ (words (cString payload)).length)
    (payloads : List (List UInt8)) : Right payload ↔
      latestWord 0 (payload :: payloads) = uid ∧ latestWord 1 (payload :: payloads) = pass := by
  rw [latestWord_cons, latestWord_cons, Right]
  generalize words (cString payload) = ws at h ⊢
  rcases ws with _ | ⟨first, _ | ⟨second, rest⟩⟩
  · exact absurd h (by decide)
  · exact absurd h (by simp)
  · simp

private theorem not_right (h : ¬ 2 ≤ (words (cString payload)).length) : ¬ Right payload := by
  intro hright
  have hlen := congrArg List.length hright
  rw [List.length_take] at hlen
  simp at hlen
  omega

/-- After any history, `check` decides on the payload alone exactly if the payload has two words, or
the words that are left of the payloads before do not complete it to the right ones. -/
theorem authPass_iff_right (buff : Buffer 4096) (history : List Earlier) (payload : List UInt8) :
    ((((history.foldl Server.after (.start buff)).check (cString payload)).authPass = true ↔
        Right payload) ↔
      2 ≤ (words (cString payload)).length ∨
        ¬ (latestWord 0 (payload :: checked history) = uid ∧
          latestWord 1 (payload :: checked history) = pass)) := by
  have h := (remembers_start buff).foldl history
  rw [List.append_nil] at h
  rw [h.authPass payload]
  by_cases htwo : 2 ≤ (words (cString payload)).length
  · exact iff_of_true (right_iff htwo _).symm (.inl htwo)
  · rw [iff_false_right (not_right htwo), or_iff_right htwo]

/-- The right words, and then a payload with none. -/
theorem emptyPayload_passes :
    ¬ ((([Earlier.auth (uid ++ 0x20 :: pass ++ [0]), .openConn].foldl Server.after
      (.start (.zeroed 4096))).check (cString [0])).authPass = true ↔ Right [0]) := by
  decide

end History

end NetworkingLabs.Ftp
