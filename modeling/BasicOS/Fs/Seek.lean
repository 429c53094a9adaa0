import BasicOS.Fs.Stream

/-! The position of an open file, `fseek`.

`fat16_seek` compares the offset with the size of the file before it looks at the mode. That
bounds the position for `SEEK_SET`, whose offset is the position, but not for `SEEK_CUR`,
whose offset is added to it: two calls by less than the size can lead behind the end. Over
any sequence of calls the position stays in the file, and is where the calls say, exactly
when no relative call leads out of it (`fseeks_inside_iff`). -/
namespace BasicOS
open Lib Program

variable {H : Type} {A : Allocator H} {C : Contract A} {s t : Files H} {fd : Int} {desc : FileDescriptor}

/-! ### Calls one after another -/

structure SeekOp where
  offset : Nat
  whence : FileSeekMode
deriving DecidableEq, Repr

/-- A call with its result and the position before and after it. -/
structure SeekDone where
  op : SeekOp
  before : Nat
  res : Int
  after : Nat

/-- `desc->pos` of an open file. -/
def Files.position (s : Files H) (fd : Int) : Nat := ((s.fileGetFd fd).map fun desc => desc.priv.pos).getD 0

def fseeks (fd : Int) : List SeekOp → Program Stop (Files H) (List SeekDone)
  | [] => return []
  | op :: ops => do
    let before := (← get).position fd
    let res ← fseek fd op.offset op.whence
    let after := (← get).position fd
    let dones ← fseeks fd ops
    return ⟨op, before, res, after⟩ :: dones

/-- What is promised of a call: the position is in the file, a failed call leaves it, and a
relative one adds its offset. -/
structure Sought (size : Nat) (done : SeekDone) : Prop where
  inside : done.after < size
  failed : done.res < 0 → done.after = done.before
  relative : 0 ≤ done.res → done.op.whence = .seekCur → done.after = done.before + done.op.offset

/-- A relative call by less than the size of the file that leads behind its end. -/
def Overshoots (size pos : Nat) (op : SeekOp) : Prop :=
  op.whence = .seekCur ∧ op.offset < size ∧ size ≤ pos + op.offset

instance (size pos : Nat) (op : SeekOp) : Decidable (Overshoots size pos op) :=
  inferInstanceAs (Decidable (_ ∧ _ ∧ _))

/-- The position a call asks for. -/
def seekTarget (size pos : Nat) (op : SeekOp) : Nat :=
  if op.offset < size then
    match op.whence with
    | .seekSet => op.offset
    | .seekCur => pos + op.offset
    | _ => pos
  else pos

/-- No call leads behind the end. -/
def SeeksInside (size : Nat) : Nat → List SeekOp → Prop
  | _, [] => True
  | pos, op :: ops => ¬ Overshoots size pos op ∧ SeeksInside size (seekTarget size pos op) ops

instance decidableSeeksInside (size : Nat) : (pos : Nat) → (ops : List SeekOp) → Decidable (SeeksInside size pos ops)
  | _, [] => isTrue trivial
  | pos, op :: ops =>
    have := decidableSeeksInside size (seekTarget size pos op) ops
    inferInstanceAs (Decidable (_ ∧ _))

/-- The descriptor is open under that number, on a file; its size is 32 bits wide. -/
structure OpenOnFile (s : Files H) (fd : Int) (desc : FileDescriptor) : Prop where
  found : s.fileGetFd fd = some desc
  id : (desc.id : Int) = fd
  type : desc.priv.item.type = fatItemTypeFile
  item : desc.priv.item.item ≠ 0
  size : desc.priv.item.record.fileSize < 2 ^ 32

/-! ### One call -/

/-- The result of `fat16_seek` in a file and the position after it. -/
def seekOutcome (size pos : Nat) (op : SeekOp) : Int × Nat :=
  if op.offset ≥ size then (-eio, pos)
  else
    match op.whence with
    | .seekSet => (0, op.offset)
    | .seekEnd => (-eunimp, pos)
    | .seekCur => (0, u32 (pos + op.offset))
    | .other => (-einvarg, pos)

theorem fat16Seek_eq {file : OpenFile} (htype : file.item.type = fatItemTypeFile) (hitem : file.item.item ≠ 0)
    (op : SeekOp) (r : Ram H) : fat16Seek file op.offset op.whence r =
      .ok (((seekOutcome file.item.record.fileSize file.pos op).1,
        {file with pos := (seekOutcome file.item.record.fileSize file.pos op).2}), r) := by
  unfold fat16Seek seekOutcome
  rw [if_neg (not_not_intro htype), when_false hitem]
  show (if _ then _ else _ : Program Stop (Ram H) (Int × OpenFile)) r = _
  split
  · rfl
  · cases op.whence <;> rfl

/-- **One call**: the position becomes what `fat16_seek` makes of it. -/
theorem fseek_outcome (h : OpenOnFile s fd desc) (op : SeekOp) : ∃ t, fseek fd op.offset op.whence s =
    .ok ((seekOutcome desc.priv.item.record.fileSize desc.priv.pos op).1, t) ∧
      t.fileGetFd fd =
        some (desc.movedTo (seekOutcome desc.priv.item.record.fileSize desc.priv.pos op).2) := by
  refine ⟨_, ?_, Files.fileGetFd_put h.found h.id _⟩
  unfold fseek inRam
  rw [bind_apply, get_apply]
  simp only [h.found]
  rw [bind_apply]
  unfold zoom
  rw [fat16Seek_eq h.type h.item]
  rfl

theorem sought_failed {size pos : Nat} {res : Int} (hpos : pos < size) (hres : res < 0) (op : SeekOp) :
    Sought size ⟨op, pos, res, pos⟩ :=
  ⟨hpos, fun _ => rfl, fun hzero _ => absurd hzero (Int.not_le.mpr hres)⟩

/-- A call that does not overshoot is as promised, and leads where it asks to. -/
theorem seekOutcome_sought {size pos : Nat} (hpos : pos < size) (hsize : size < 2 ^ 32) (op : SeekOp)
    (hover : ¬ Overshoots size pos op) :
    Sought size ⟨op, pos, (seekOutcome size pos op).1, (seekOutcome size pos op).2⟩ ∧
      (seekOutcome size pos op).2 = seekTarget size pos op := by
  obtain ⟨offset, whence⟩ := op
  unfold Overshoots at hover
  unfold seekOutcome seekTarget
  have heio : -eio < 0 := by decide
  by_cases hfar : offset ≥ size
  · simp only [if_pos hfar, if_neg (Nat.not_lt.mpr hfar)]
    exact ⟨sought_failed hpos heio _, trivial⟩
  have hin : offset < size := Nat.lt_of_not_le hfar
  have hunimp : -eunimp < 0 := by decide
  have hinvarg : -einvarg < 0 := by decide
  simp only [if_neg hfar, if_pos hin]
  cases whence with
  | seekSet =>
    refine ⟨⟨hin, fun hneg => absurd hneg (Int.lt_irrefl 0), fun _ hmode => ?_⟩, rfl⟩
    cases hmode
  | seekEnd => exact ⟨sought_failed hpos hunimp _, rfl⟩
  | other => exact ⟨sought_failed hpos hinvarg _, rfl⟩
  | seekCur =>
    have hend : pos + offset < size := by
      by_contra hend
      exact hover ⟨rfl, hin, Nat.le_of_not_lt hend⟩
    have hsum : u32 (pos + offset) = pos + offset := u32_of_lt (by omega)
    simp only [hsum]
    exact ⟨⟨hend, fun hneg => absurd hneg (Int.lt_irrefl 0), fun _ _ => rfl⟩, trivial⟩

theorem seekOutcome_overshoots {size pos : Nat} {op : SeekOp} (hover : Overshoots size pos op) :
    ¬ Sought size ⟨op, pos, (seekOutcome size pos op).1, (seekOutcome size pos op).2⟩ := by
  obtain ⟨offset, whence⟩ := op
  obtain ⟨rfl, hin, hend⟩ := hover
  intro h
  have hinside := h.inside
  have hsum := h.relative
  unfold seekOutcome at hinside hsum
  simp only [if_neg (Nat.not_le.mpr hin)] at hinside hsum
  -- the sum is behind the end, or it has wrapped and is no sum any more
  have hrel : u32 (pos + offset) = pos + offset := hsum (Int.le_refl 0) trivial
  have hend' : size ≤ pos + offset := hend
  omega

theorem seekTarget_lt {size pos : Nat} (hpos : pos < size) {op : SeekOp} (hover : ¬ Overshoots size pos op) :
    seekTarget size pos op < size := by
  unfold Overshoots at hover
  unfold seekTarget
  split
  · cases hmode : op.whence <;> simp only [hmode, true_and, reduceCtorEq, false_and] at hover ⊢ <;> omega
  · exact hpos

theorem OpenOnFile.moved {pos : Nat} (h : OpenOnFile s fd desc) (hfound : t.fileGetFd fd = some (desc.movedTo pos)) :
    OpenOnFile t fd (desc.movedTo pos) :=
  ⟨hfound, h.id, h.type, h.item, h.size⟩

/-! ### Sequences of calls -/

theorem Files.position_found (h : s.fileGetFd fd = some desc) : s.position fd = desc.priv.pos := by
  unfold Files.position
  rw [h]
  rfl

/-- The calls after the first run from where it led. -/
theorem fseeks_cons (h : OpenOnFile s fd desc) (op : SeekOp) (ops : List SeekOp) :
    ∃ t, OpenOnFile t fd (desc.movedTo (seekOutcome desc.priv.item.record.fileSize desc.priv.pos op).2) ∧
      ∀ {dones u}, fseeks fd ops t = .ok (dones, u) → fseeks fd (op :: ops) s =
        .ok (⟨op, desc.priv.pos, (seekOutcome desc.priv.item.record.fileSize desc.priv.pos op).1,
          (seekOutcome desc.priv.item.record.fileSize desc.priv.pos op).2⟩ :: dones, u) := by
  obtain ⟨t, hcall, hmoved⟩ := fseek_outcome h op
  refine ⟨t, h.moved hmoved, fun {dones u} hrest => ?_⟩
  unfold fseeks
  simp only [bind_apply, get_apply, hcall, hrest, Files.position_found h.found, Files.position_found hmoved]
  rfl

/-- Wherever the calls lead, they return. -/
theorem fseeks_returns (h : OpenOnFile s fd desc) (ops : List SeekOp) :
    ∃ dones t, fseeks fd ops s = .ok (dones, t) := by
  induction ops generalizing s desc with
  | nil => exact ⟨[], s, rfl⟩
  | cons op ops ih =>
    obtain ⟨t, hmoved, hcons⟩ := fseeks_cons h op ops
    obtain ⟨dones, u, hrest⟩ := ih hmoved
    exact ⟨_, u, hcons hrest⟩

theorem fseeks_from (h : OpenOnFile s fd desc) (hpos : desc.priv.pos < desc.priv.item.record.fileSize)
    (ops : List SeekOp) : ∃ dones t, fseeks fd ops s = .ok (dones, t) ∧
      ((∀ done ∈ dones, Sought desc.priv.item.record.fileSize done) ↔
        SeeksInside desc.priv.item.record.fileSize desc.priv.pos ops) := by
  induction ops generalizing s desc with
  | nil => exact ⟨[], s, rfl, iff_of_true (fun done hdone => absurd hdone List.not_mem_nil) trivial⟩
  | cons op ops ih =>
    obtain ⟨t, hmoved, hcons⟩ := fseeks_cons h op ops
    by_cases hover : Overshoots desc.priv.item.record.fileSize desc.priv.pos op
    · obtain ⟨dones, u, hrest⟩ := fseeks_returns hmoved ops
      refine ⟨_, u, hcons hrest, iff_of_false (fun hall => ?_) (fun hinside => hinside.1 hover)⟩
      exact seekOutcome_overshoots hover (hall _ List.mem_cons_self)
    · obtain ⟨hsought, htarget⟩ := seekOutcome_sought hpos h.size op hover
      rw [htarget] at hmoved
      obtain ⟨dones, u, hrest, hiff⟩ := ih hmoved (seekTarget_lt hpos hover)
      refine ⟨_, u, hcons hrest, ?_⟩
      rw [List.forall_mem_cons]
      exact ⟨fun hall => ⟨hover, hiff.mp hall.2⟩, fun hinside => ⟨hsought, hiff.mpr hinside.2⟩⟩

/-! ### From a freshly opened file -/

/-- All calls return, and do what is promised of them. -/
def SeeksKept (s : Files H) (fd : Int) (size : Nat) (ops : List SeekOp) : Prop :=
  ∃ dones t, fseeks fd ops s = .ok (dones, t) ∧ ∀ done ∈ dones, Sought size done

theorem fopen_fresh {vol : Volume} {filename modeStr : List UInt8} {n : Nat} (hheap : C.Valid s.ram.heap)
    (hopen : fopen A vol filename modeStr s = .ok (n, t)) (hn : n ≠ 0) :
    ∃ desc, t.fileGetFd n = some desc ∧ (desc.id : Int) = n ∧ desc.priv.item.type = fatItemTypeFile ∧
      desc.priv.pos = 0 := by
  have hspec := fopen_spec (Taken.refl hheap) vol filename modeStr
  rw [Ensures, wp, hopen] at hspec
  obtain ⟨rfl, _⟩ | ⟨i, desc, rfl, hopened, _, htable, _⟩ := hspec
  · exact absurd rfl hn
  · refine ⟨desc, ?_, by rw [hopened.id], hopened.type, hopened.pos⟩
    have hat := fileGetFd_succ t hopened.index
    rw [htable] at hat
    rw [hat]
    exact Function.update_self ..

/-- A record `fopen` could not copy is a null pointer to `fat16_seek`. -/
theorem fseeks_null (hfound : s.fileGetFd fd = some desc) (htype : desc.priv.item.type = fatItemTypeFile)
    (hitem : desc.priv.item.item = 0) (op : SeekOp) (ops : List SeekOp) : fseeks fd (op :: ops) s = .error .fault := by
  have hcall : fseek fd op.offset op.whence s = .error .fault := by
    unfold fseek fat16Seek inRam
    rw [bind_apply, get_apply]
    simp only [hfound]
    rw [if_neg (not_not_intro htype), when_true hitem]
    rfl
  unfold fseeks
  simp only [bind_apply, get_apply, hcall]

/-- **A freshly opened file stays at a position inside it exactly when** no relative call by
less than its size leads behind its end, and its record could be copied. -/
theorem fseeks_inside_iff {vol : Volume} {filename modeStr : List UInt8} {n : Nat} (hheap : C.Valid s.ram.heap)
    (hopen : fopen A vol filename modeStr s = .ok (n, t)) (hn : n ≠ 0) :
    ∃ desc, t.fileGetFd n = some desc ∧ ∀ size, desc.priv.item.record.fileSize = size → 0 < size → size < 2 ^ 32 →
      ∀ ops, SeeksKept t n size ops ↔ ops = [] ∨ desc.priv.item.item ≠ 0 ∧ SeeksInside size 0 ops := by
  obtain ⟨desc, hfound, hid, htype, hpos⟩ := fopen_fresh hheap hopen hn
  refine ⟨desc, hfound, fun size hsize hfile hwide ops => ?_⟩
  cases ops with
  | nil => exact iff_of_true ⟨[], t, rfl, fun done hdone => absurd hdone List.not_mem_nil⟩ (.inl rfl)
  | cons op ops =>
    rw [or_iff_right (List.cons_ne_nil op ops)]
    by_cases hitem : desc.priv.item.item = 0
    · refine iff_of_false (fun hkept => ?_) (fun hinside => hinside.1 hitem)
      obtain ⟨dones, u, hrun, _⟩ := hkept
      rw [fseeks_null hfound htype hitem] at hrun
      cases hrun
    · subst hsize
      obtain ⟨dones, u, hrun, hiff⟩ :=
        fseeks_from ⟨hfound, hid, htype, hitem, hwide⟩ (by rw [hpos]; exact hfile) (op :: ops)
      rw [hpos] at hiff
      rw [and_iff_right hitem, ← hiff]
      refine ⟨fun hkept => ?_, fun hall => ⟨dones, u, hrun, hall⟩⟩
      obtain ⟨dones', u', hrun', hall⟩ := hkept
      rw [hrun] at hrun'
      cases hrun'
      exact hall

/-! ### Two calls in five bytes -/

theorem pathX_opened : ∃ files desc, fopen ladder oneFileVolume pathX [0x72] noFiles = .ok (1, files) ∧
    files.fileGetFd 1 = some desc ∧ desc.priv.item.record.fileSize = 5 ∧ desc.priv.item.item ≠ 0 := by
  obtain ⟨files, hopen⟩ := fopen_pathX
  have hlook : (match fopen ladder oneFileVolume pathX [0x72] noFiles with
      | .ok (_, files) => (files.fileGetFd 1).any fun desc =>
        desc.priv.item.record.fileSize = 5 ∧ desc.priv.item.item ≠ 0
      | .error _ => false) = true := by decide +kernel
  rw [hopen, Option.any_eq_true] at hlook
  obtain ⟨desc, hfound, hdesc⟩ := hlook
  exact ⟨files, desc, hopen, hfound, of_decide_eq_true hdesc⟩

/-- To the fourth byte of five, then on by one. -/
def twoSeeks : List SeekOp := [⟨3, .seekSet⟩, ⟨1, .seekCur⟩]

theorem fseeks_inside_two_calls : ∃ files, SeeksKept (H := Ladder) files 1 5 twoSeeks := by
  obtain ⟨files, desc, hopen, hfound, hsize, hitem⟩ := pathX_opened
  obtain ⟨desc', hfound', hiff⟩ := fseeks_inside_iff noFiles_valid hopen (by decide)
  rw [show ((1 : Nat) : Int) = 1 from rfl, hfound] at hfound'
  cases hfound'
  exact ⟨files, (hiff 5 hsize (by decide) (by decide) twoSeeks).mpr (.inr ⟨hitem, by decide⟩)⟩

/-- **Two relative calls by three lead behind the fifth byte.** -/
theorem fseeks_overshoot : ¬ ∀ (s t : Files Ladder) (vol : Volume) (filename modeStr : List UInt8) (n : Nat),
    ladderContract.Valid s.ram.heap → fopen ladder vol filename modeStr s = .ok (n, t) → n ≠ 0 →
    ∀ desc, t.fileGetFd n = some desc → 0 < desc.priv.item.record.fileSize →
      ∀ ops, SeeksKept t n desc.priv.item.record.fileSize ops := by
  intro h
  obtain ⟨files, desc, hopen, hfound, hsize, hitem⟩ := pathX_opened
  have hall := h noFiles files oneFileVolume pathX [0x72] 1 noFiles_valid hopen (by decide) desc hfound (by omega)
  obtain ⟨desc', hfound', hid, htype, hpos⟩ := fopen_fresh noFiles_valid hopen (by decide)
  rw [show ((1 : Nat) : Int) = 1 from rfl, hfound] at hfound'
  cases hfound'
  obtain ⟨dones, u, hrun, hiff⟩ :=
    fseeks_from ⟨hfound, hid, htype, hitem, by omega⟩ (by omega) [⟨3, .seekCur⟩, ⟨3, .seekCur⟩]
  obtain ⟨dones', u', hrun', hkept⟩ := hall [⟨3, .seekCur⟩, ⟨3, .seekCur⟩]
  rw [show ((1 : Nat) : Int) = 1 from rfl, hrun] at hrun'
  cases hrun'
  have hinside := hiff.mp hkept
  rw [hsize, hpos] at hinside
  exact hinside.2.1 ⟨rfl, by decide, by decide⟩

end BasicOS
