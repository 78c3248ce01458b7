import NetworkingLabs.FtpServer
import Mathlib.Data.Nat.Find

/-!
# Files that are read in several pieces

The loop of `upload`, over calls of `fread` that may return less than was asked for. Each of them
stores at the start of `fileBuf`, and only the end of the file ends the loop.
-/
namespace NetworkingLabs.Ftp

section Upload

/-- A call of `fread`: how many bytes it returns, and whether it sets the flag that `feof` reads. -/
structure Fread where
  ret : ℕ
  eof : Bool
  deriving DecidableEq

def offset (reads : ℕ → Fread) : ℕ → ℕ
  | 0 => 0
  | k + 1 => offset reads k + (reads k).ret

/-- `while(!feof(fp))` for so many turns, from the k-th call on, with what is left of the file;
`none` has not ended by then. -/
def uploadReads (reads : ℕ → Fread) : ℕ → ℕ → List UInt8 → Buffer fileBufSize → ℕ →
    Option (Buffer fileBufSize × ℕ)
  | 0, _, _, _, _ => none
  | turns + 1, k, rest, fileBuf, fileLength =>
    let ret := (reads k).ret
    let fileBuf := fileBuf.fill (rest.take ret)
    if (reads k).eof then some (fileBuf, fileLength + ret)
    else uploadReads reads turns (k + 1) (rest.drop ret) fileBuf (fileLength + ret)

/-- `upload(filepath)` for so many turns, with what `fopen` finds: the result, `fileBuf` and
`fileLength`. -/
def uploadFile (reads : ℕ → Fread) (turns : ℕ) (found : Option (List UInt8))
    (fileBuf : Buffer fileBufSize) (fileLength : ℕ) : Option (Bool × Buffer fileBufSize × ℕ) :=
  match found with
  | none => some (false, fileBuf, fileLength)
  | some file => (uploadReads reads turns 0 file fileBuf 0).map (true, ·)

/-- What `fread` may do on a file of some size: it returns at most what was asked for and what is
there, and meets the end of the file only if it has read all of it and was asked for more. -/
def Freads (size : ℕ) (reads : ℕ → Fread) : Prop :=
  ∀ k, (reads k).ret ≤ fileBufSize - offset reads k ∧ offset reads k + (reads k).ret ≤ size ∧
    ((reads k).eof = true →
      offset reads k + (reads k).ret = size ∧ (reads k).ret < fileBufSize - offset reads k)

/-- Whatever a file of the size contains, `upload` ends, and if it returns true, `fileBuf` starts
with the file and `fileLength` is its size. -/
def Uploads (size : ℕ) (reads : ℕ → Fread) : Prop :=
  ∀ (file : List UInt8) (fileBuf : Buffer fileBufSize) (fileLength : ℕ), file.length = size →
    ∃ turns out, uploadFile reads turns (some file) fileBuf fileLength = some out ∧
      (out.1 = true → out.2.2 = size ∧ out.2.1.bytes.take size = file)

/-- The end of the file is met, and all of the file comes with one call. -/
def ReadAtOnce (reads : ℕ → Fread) : Prop :=
  ∃ k, (reads k).eof = true ∧ ∃ j ≤ k, ∀ i ≤ k, i ≠ j → (reads i).ret = 0

def bufAt (reads : ℕ → Fread) (file : List UInt8) (fileBuf : Buffer fileBufSize) :
    ℕ → Buffer fileBufSize
  | 0 => fileBuf
  | k + 1 => (bufAt reads file fileBuf k).fill ((file.drop (offset reads k)).take (reads k).ret)

variable {reads : ℕ → Fread} {size k j turns : ℕ} {file : List UInt8} {fileBuf : Buffer fileBufSize}

theorem uploadReads_eof (hj : (reads j).eof = true) (hk : k ≤ j)
    (hfirst : ∀ i, k ≤ i → i < j → (reads i).eof = false) (hturns : j < k + turns) :
    uploadReads reads turns k (file.drop (offset reads k)) (bufAt reads file fileBuf k)
      (offset reads k) = some (bufAt reads file fileBuf (j + 1), offset reads (j + 1)) := by
  induction turns generalizing k with
  | zero => omega
  | succ turns ih =>
    rw [uploadReads]
    rcases Nat.eq_or_lt_of_le hk with rfl | hlt
    · rw [if_pos hj]
      rfl
    · have hnot := hfirst k (Nat.le_refl k) hlt
      have hnext := ih hlt (fun i hi ↦ hfirst i (Nat.le_of_succ_le hi)) (by omega)
      rw [hnot, List.drop_drop]
      exact hnext

private theorem uploadReads_none (h : ∀ i, k ≤ i → i < k + turns → (reads i).eof = false)
    (rest : List UInt8) (fileBuf : Buffer fileBufSize) (fileLength : ℕ) :
    uploadReads reads turns k rest fileBuf fileLength = none := by
  induction turns generalizing k rest fileBuf fileLength with
  | zero => rfl
  | succ turns ih =>
    rw [uploadReads, h k (Nat.le_refl k) (by omega)]
    exact ih (fun i hi hlt ↦ h i (by omega) (by omega)) _ _ _

/-- What `upload` leaves, where the first call that meets the end of the file is the j-th. -/
theorem uploadFile_eq (hj : (reads j).eof = true) (hfirst : ∀ i < j, (reads i).eof = false)
    (turns : ℕ) (file : List UInt8) (fileBuf : Buffer fileBufSize) (fileLength : ℕ) :
    uploadFile reads turns (some file) fileBuf fileLength =
      if j < turns then some (true, bufAt reads file fileBuf (j + 1), offset reads (j + 1))
      else none := by
  rw [uploadFile]
  split
  · rename_i hturns
    have hrun : uploadReads reads turns 0 file fileBuf 0 =
        some (bufAt reads file fileBuf (j + 1), offset reads (j + 1)) :=
      uploadReads_eof hj (Nat.zero_le j) (fun i _ hi ↦ hfirst i hi) (by omega)
    exact congrArg (Option.map (true, ·)) hrun
  · rw [uploadReads_none fun i _ hi ↦ hfirst i (by omega)]
    rfl

private theorem fill_nil (fileBuf : Buffer fileBufSize) : fileBuf.fill [] = fileBuf := by
  apply Buffer.ext
  rfl

private theorem bufAt_succ_of_zero (h : (reads k).ret = 0) :
    bufAt reads file fileBuf (k + 1) = bufAt reads file fileBuf k := by
  rw [bufAt, h, List.take_zero, fill_nil]

private theorem bufAt_skip {a b : ℕ} (file : List UInt8) (fileBuf : Buffer fileBufSize)
    (hab : a ≤ b) (h : ∀ i, a ≤ i → i < b → (reads i).ret = 0) :
    bufAt reads file fileBuf b = bufAt reads file fileBuf a ∧ offset reads b = offset reads a := by
  induction b, hab using Nat.le_induction with
  | base => exact ⟨rfl, rfl⟩
  | succ b hab ih =>
    obtain ⟨hbuf, hoff⟩ := ih fun i hi hlt ↦ h i hi (by omega)
    have hzero := h b hab (Nat.lt_succ_self b)
    refine ⟨(bufAt_succ_of_zero hzero).trans hbuf, ?_⟩
    rw [offset, hzero, Nat.add_zero, hoff]

private theorem offset_mono {a b : ℕ} (hab : a ≤ b) : offset reads a ≤ offset reads b := by
  induction b, hab using Nat.le_induction with
  | base => exact Nat.le_refl _
  | succ b hab ih => exact Nat.le_trans ih (Nat.le_add_right _ _)

theorem Freads.size_lt (h : Freads size reads) (hk : (reads k).eof = true) :
    size < fileBufSize := by
  obtain ⟨-, -, heof⟩ := h k
  have hend := heof hk
  omega

theorem exists_first_eof (hk : (reads k).eof = true) :
    ∃ j ≤ k, (reads j).eof = true ∧ ∀ i < j, (reads i).eof = false := by
  have hex : ∃ j, (reads j).eof = true := ⟨k, hk⟩
  refine ⟨Nat.find hex, Nat.find_min' hex hk, Nat.find_spec hex, fun i hi ↦ ?_⟩
  simpa using Nat.find_min hex hi

private theorem fill_take (fileBuf : Buffer fileBufSize) (h : file.length < fileBufSize) :
    (fileBuf.fill file).bytes.take file.length = file := by
  show (file.take fileBufSize ++ fileBuf.bytes.drop file.length).take file.length = file
  rw [List.take_of_length_le (Nat.le_of_lt h), List.take_left' rfl]

theorem Freads.uploads (h : Freads size reads) (honce : ReadAtOnce reads) :
    Uploads size reads := by
  obtain ⟨k, hk, j, hj, hzero⟩ := honce
  obtain ⟨last, hlast, heof, hfirst⟩ := exists_first_eof hk
  intro file fileBuf fileLength hfile
  refine ⟨last + 1, _, (uploadFile_eq heof hfirst _ _ _ _).trans (if_pos (Nat.lt_succ_self last)),
    fun _ ↦ ?_⟩
  have hsize : offset reads (last + 1) = size := ((h last).2.2 heof).1
  refine ⟨hsize, ?_⟩
  rcases Nat.lt_or_ge last j with hbefore | hafter
  · -- nothing has been read at all
    have hnone := bufAt_skip file fileBuf (Nat.zero_le (last + 1))
      fun i _ hi ↦ hzero i (by omega) (by omega)
    have hempty : size = 0 := hsize.symm.trans hnone.2
    rw [hempty] at hfile ⊢
    rw [List.take_zero, List.eq_nil_of_length_eq_zero hfile]
  · have hskip := bufAt_skip file fileBuf (Nat.succ_le_succ hafter)
      fun i hi hlt ↦ hzero i (by omega) (by omega)
    have hstart := bufAt_skip file fileBuf (Nat.zero_le j)
      fun i _ hi ↦ hzero i (by omega) (by omega)
    have hoff : offset reads j = 0 := hstart.2
    have hret : (reads j).ret = file.length := by
      have hstep : offset reads (j + 1) = offset reads j + (reads j).ret := rfl
      have hskipped : offset reads (last + 1) = offset reads (j + 1) := hskip.2
      omega
    have hbuf : bufAt reads file fileBuf (j + 1) = fileBuf.fill file := by
      rw [bufAt, hstart.1, hoff, hret, List.drop_zero, List.take_length, bufAt]
    have hlast' : bufAt reads file fileBuf (last + 1) = fileBuf.fill file := hskip.1.trans hbuf
    rw [hlast', ← hfile]
    exact fill_take fileBuf (hfile ▸ h.size_lt hk)

theorem Uploads.exists_eof (h : Uploads size reads) : ∃ k, (reads k).eof = true := by
  obtain ⟨turns, out, hout, -⟩ := h (List.replicate size 0) (.zeroed _) 0 List.length_replicate
  by_contra hnever
  rw [uploadFile, uploadReads_none fun i _ _ ↦ by simpa using fun hi ↦ hnever ⟨i, hi⟩] at hout
  cases hout

/-- The file with which it shows where in the file the last piece came from. -/
def marked (d size : ℕ) : List UInt8 := List.replicate d 0 ++ List.replicate (size - d) 1

/-- A piece that is not the first one of the file ends up at the start of `fileBuf`. -/
theorem head_fill_marked {d n : ℕ} (hn : 0 < n) (hd : d + n ≤ size) (hsize : size ≤ fileBufSize)
    (fileBuf : Buffer fileBufSize) :
    ((fileBuf.fill (((marked d size).drop d).take n)).bytes.take size).head? = some 1 := by
  have hpiece : ((marked d size).drop d).take n = List.replicate n 1 := by
    rw [marked, List.drop_left' List.length_replicate, List.take_replicate,
      Nat.min_eq_left (by omega)]
  have hbytes : (fileBuf.fill (List.replicate n 1)).bytes =
      List.replicate n 1 ++ fileBuf.bytes.drop n := by
    show (List.replicate n 1).take fileBufSize ++ fileBuf.bytes.drop _ = _
    rw [List.take_of_length_le (by rw [List.length_replicate]; omega), List.length_replicate]
  rw [hpiece, hbytes]
  obtain ⟨m, rfl⟩ : ∃ m, n = m + 1 := ⟨n - 1, by omega⟩
  obtain ⟨s, rfl⟩ : ∃ s, size = s + 1 := ⟨size - 1, by omega⟩
  rfl

/-- The last piece is stored at the start of `fileBuf`, so it has to be the start of the file. -/
theorem Freads.offset_last (h : Freads size reads) (hup : Uploads size reads) {last : ℕ}
    (heof : (reads last).eof = true) (hfirst : ∀ i < last, (reads i).eof = false) (hj : j ≤ last)
    (hpiece : (reads j).ret ≠ 0) (hafter : ∀ i, j < i → i ≤ last → (reads i).ret = 0) :
    offset reads j = 0 := by
  have hlt := h.size_lt heof
  have hbound := (h j).2.1
  by_contra hoff
  obtain ⟨turns, out, hout, hright⟩ := hup (marked (offset reads j) size) (.zeroed _) 0 (by
    rw [marked, List.length_append, List.length_replicate, List.length_replicate]
    omega)
  rw [uploadFile_eq heof hfirst] at hout
  split at hout
  · cases hout
    obtain ⟨-, hcontents⟩ := hright rfl
    have hskip := bufAt_skip (marked (offset reads j) size) (.zeroed _) (Nat.succ_le_succ hj)
      fun i hi hlast ↦ hafter i hi (by omega)
    have hhead := head_fill_marked (Nat.pos_of_ne_zero hpiece) hbound (Nat.le_of_lt hlt)
      (bufAt reads (marked (offset reads j) size) (.zeroed _) j)
    dsimp only at hcontents
    rw [hskip.1, bufAt] at hcontents
    rw [hcontents, marked] at hhead
    obtain ⟨d, hd⟩ : ∃ d, offset reads j = d + 1 := ⟨offset reads j - 1, by omega⟩
    rw [hd, List.replicate_succ, List.cons_append, List.head?_cons] at hhead
    exact absurd (Option.some.inj hhead) (by decide)
  · cases hout

theorem Freads.readAtOnce (h : Freads size reads) (hup : Uploads size reads) :
    ReadAtOnce reads := by
  obtain ⟨k, hk⟩ := hup.exists_eof
  obtain ⟨last, -, heof, hfirst⟩ := exists_first_eof hk
  -- the last call that returns something
  let j := Nat.findGreatest (fun i ↦ (reads i).ret ≠ 0) last
  have hj : j ≤ last := Nat.findGreatest_le last
  have hafter : ∀ i, j < i → i ≤ last → (reads i).ret = 0 := by
    intro i hi hlast
    simpa using Nat.findGreatest_is_greatest hi hlast
  refine ⟨last, heof, j, hj, ?_⟩
  by_contra hmany
  push Not at hmany
  obtain ⟨i, hi, hij, hret⟩ := hmany
  have hbefore : i < j := by
    by_contra hge
    exact hret (hafter i (by omega) hi)
  have hpiece : (reads j).ret ≠ 0 :=
    Nat.findGreatest_spec (P := fun i ↦ (reads i).ret ≠ 0) hi hret
  have hoff : offset reads i + (reads i).ret ≤ offset reads j := offset_mono hbefore
  have hstart := h.offset_last hup heof hfirst hj hpiece hafter
  omega

/-- For a file of any size, and whatever `fread` does with it: `upload` reads the file exactly if
it is smaller than `fileBuf`, its end is met, and it comes in one piece. -/
theorem uploads_iff (h : Freads size reads) :
    Uploads size reads ↔ size < fileBufSize ∧ ReadAtOnce reads := by
  constructor
  · intro hup
    have honce := h.readAtOnce hup
    obtain ⟨k, hk, -⟩ := honce
    exact ⟨h.size_lt hk, h.readAtOnce hup⟩
  · rintro ⟨-, honce⟩
    exact h.uploads honce

def whole (size : ℕ) : ℕ → Fread
  | 0 => ⟨min fileBufSize size, size < fileBufSize⟩
  | _ + 1 => ⟨0, false⟩

private theorem offset_whole (size k : ℕ) : offset (whole size) (k + 1) = min fileBufSize size := by
  induction k with
  | zero => exact Nat.zero_add _
  | succ k ih => rw [offset, ih, whole, Nat.add_zero]

private theorem freads_whole (size : ℕ) : Freads size (whole size) := by
  intro k
  cases k with
  | zero =>
    simp only [whole, offset, decide_eq_true_eq]
    omega
  | succ k =>
    rw [offset_whole]
    exact ⟨Nat.zero_le _, Nat.min_le_right _ _, fun h ↦ absurd h Bool.false_ne_true⟩

/-- Over such calls the loop is the one that the server was described with. -/
theorem upload_eq_uploadFile (file : List UInt8) (fileBuf : Buffer fileBufSize) (fileLength : ℕ) :
    upload file = (uploadFile (whole file.length) 1 (some file) fileBuf fileLength).map
      fun out ↦ out.2.1.bytes.take out.2.2 := by
  rcases Nat.lt_or_ge file.length fileBufSize with hsmall | hlarge
  · have heof : (whole file.length 0).eof = true := decide_eq_true hsmall
    have hret : (whole file.length 0).ret = file.length := Nat.min_eq_right (Nat.le_of_lt hsmall)
    rw [upload_small hsmall, uploadFile_eq heof (by simp)]
    simp [bufAt, offset, hret, fill_take fileBuf hsmall]
  · have hnever : ∀ i, (whole file.length i).eof = false := by
      intro i
      cases i with
      | zero => exact decide_eq_false (Nat.not_lt.mpr hlarge)
      | succ i => rfl
    rw [upload_large hlarge, uploadFile, uploadReads_none fun i _ _ ↦ hnever i]
    rfl

/-- Three bytes, in one piece. -/
theorem uploads_three : Uploads 3 (whole 3) ↔ 3 < fileBufSize ∧ ReadAtOnce (whole 3) :=
  uploads_iff (freads_whole 3)

/-- A file of the size of `fileBuf` is read in full, and then nothing is asked for any more. -/
theorem not_uploads_full : ¬ Uploads fileBufSize (whole fileBufSize) := by
  intro hup
  obtain ⟨k, hk⟩ := hup.exists_eof
  exact absurd ((freads_whole fileBufSize).size_lt hk) (Nat.lt_irrefl _)

end Upload

end NetworkingLabs.Ftp
