import BasicOS.Fs.Descriptors
import BasicOS.Fs.FileContents

/-! Reads one after another from an open file.

Successful reads should deliver the file from the descriptor's position on, each where the
one before it ended, and none past the end of the file (`StreamsFrom`). But `fat16_read`
moves no position and asks for no size: every read starts where the first did. So the reads
are a stream exactly when the file repeats itself in step with those the driver serves
(`InStep`): a first read ends in the file, and for a second one the file has further on the
bytes it has at that one position. -/
namespace BasicOS
open Lib Program

variable {H : Type}

/-- The arguments of one `fread`. -/
structure ReadOp where
  ptr : Nat
  size : Nat
  nmemb : Nat
deriving DecidableEq, Repr

/-- The bytes a read asks for. -/
def ReadOp.total (op : ReadOp) : Nat := op.nmemb * op.size

/-- `fread` calls one after another: what each returned, and the bytes at its pointer then. -/
def freads (vol : Volume) (fd : Int) : List ReadOp → Program Stop (Files H) (List (Int × List UInt8))
  | [] => return []
  | op :: ops => do
    let res ← fread vol op.ptr op.size op.nmemb fd
    let bytes := diskBytes (← get).ram.mem op.ptr op.total
    let outs ← freads vol fd ops
    return (res, bytes) :: outs

/-- The reads after an optional `fseek` from the start of the file. -/
def seekAndRead (vol : Volume) (fd : Int) (seek : Option Nat) (ops : List ReadOp) :
    Program Stop (Files H) (List (Int × List UInt8)) := do
  match seek with
  | none => freads vol fd ops
  | some offset =>
    let _ ← fseek fd offset .seekSet
    freads vol fd ops

/-- The successful reads deliver the file from `pos` on, each from where the last ended, and
none goes past the end. -/
def StreamsFrom (content : List UInt8) (fileSize : Nat) : Nat → List (ReadOp × Int × List UInt8) → Prop
  | _, [] => True
  | pos, (op, res, bytes) :: rest =>
    if 0 ≤ res then
      pos + op.total ≤ fileSize ∧ bytes = (content.drop pos).take op.total ∧
        StreamsFrom content fileSize (pos + op.total) rest
    else StreamsFrom content fileSize pos rest

/-- The driver serves the read at `pos`: every block of it starts in the first cluster and
is no longer than a cluster. -/
structure ReadOp.Served (op : ReadOp) (disk : Memory) (pos : Nat) : Prop where
  size : 1 ≤ op.size ∧ op.size ≤ clusterSize disk
  nmemb : 1 ≤ op.nmemb
  blocks : ∀ j, j < op.nmemb → pos + j * op.size < clusterSize disk

instance (op : ReadOp) (disk : Memory) (pos : Nat) : Decidable (op.Served disk pos) :=
  decidable_of_iff ((1 ≤ op.size ∧ op.size ≤ clusterSize disk) ∧ 1 ≤ op.nmemb ∧
    ∀ j, j < op.nmemb → pos + j * op.size < clusterSize disk)
    ⟨fun h => ⟨h.1, h.2.1, h.2.2⟩, fun h => ⟨h.size, h.nmemb, h.blocks⟩⟩

/-- The bytes that reads ask for together. -/
def readTotal (ops : List ReadOp) : Nat := (ops.map ReadOp.total).sum

/-- What is `i` bytes behind `pos` for the driver: the file's byte in its first cluster `c`, and further on the disk's. -/
def byteBehind (disk : Memory) (c : Nat) (content : List UInt8) (pos i : Nat) : Option UInt8 :=
  if pos + i < clusterSize disk then content[pos + i]? else some (disk (u32 (clusterStart disk c + pos + i)))

/-- `done` bytes on from `pos` the file has, as far as the read goes, the bytes that are at `pos`. -/
structure ReadOp.InStep (op : ReadOp) (disk : Memory) (c : Nat) (content : List UInt8) (fileSize pos done : Nat) : Prop where
  inside : pos + done + op.total ≤ fileSize
  repeats : ∀ i, i < op.total → content[pos + done + i]? = byteBehind disk c content pos i

/-- Every read the driver serves is in step with the bytes asked for by those it served before. -/
def InStep (disk : Memory) (c : Nat) (content : List UInt8) (fileSize pos done : Nat) (ops : List ReadOp) : Prop :=
  ∀ before op after, ops.filter (fun op => decide (op.Served disk pos)) = before ++ op :: after →
    op.InStep disk c content fileSize pos (done + readTotal before)

/-! ### One read -/

variable {disk : Memory} {priv : FatPrivate} {record : FatDirectoryItem} {c pos size : Nat}

/-- Blocks that all start in the first cluster are read from there on. -/
theorem fat16ReadBlocks_first (hv : MountedVolume disk priv) (hcluster : fat16GetFirstCluster record = c) (hc2 : 2 ≤ c)
    (hc : c < 0xFFF0) (hfit : clusterStart disk c + clusterSize disk ≤ 2 ^ 32) (hsize : 0 < size)
    (hsize' : size ≤ clusterSize disk) (n : Nat) (hblocks : ∀ j, j < n → pos + j * size < clusterSize disk) :
    fat16ReadBlocks disk priv record size n (s32 pos) = (0, streamBytes disk (clusterStart disk c + pos)
      (n * size)) := by
  have hcs := MountedVolume.size_lt disk
  induction n generalizing pos with
  | zero =>
    rw [Nat.zero_mul]
    rfl
  | succ n ih =>
    have hfirst : pos < clusterSize disk := by simpa using hblocks 0 (Nat.succ_pos n)
    have hread := fat16ReadInternal_eq hv hc2 hc hfit hsize (show pos < 2 ^ 32 by omega)
    rw [if_pos ⟨hfirst, hsize'⟩] at hread
    have hrest : fat16ReadBlocks disk priv record size n (s32 (pos + size)) =
        (0, streamBytes disk (clusterStart disk c + (pos + size)) (n * size)) := by
      refine ih fun j hj => ?_
      have hnext := hblocks (j + 1) (by omega)
      rw [Nat.succ_mul] at hnext
      omega
    have hstream : streamBytes disk (clusterStart disk c + pos) ((n + 1) * size) =
        streamBytes disk (clusterStart disk c + pos) size ++
          streamBytes disk (clusterStart disk c + (pos + size)) (n * size) := by
      rw [Nat.succ_mul, Nat.add_comm (n * size), streamBytes_add, streamBytes_u32, Nat.add_assoc]
    unfold fat16ReadBlocks
    rw [hcluster, hread, u32OfInt_s32, u32_of_lt (show pos < 2 ^ 32 by omega), hstream]
    simp only [Int.lt_irrefl, if_false, hrest]

/-- Any other blocks fail. -/
theorem fat16ReadBlocks_fails (hv : MountedVolume disk priv) (hcluster : fat16GetFirstCluster record = c) (hc2 : 2 ≤ c)
    (hc : c < 0xFFF0) (hfit : clusterStart disk c + clusterSize disk ≤ 2 ^ 32) (hsize : 0 < size) (n : Nat)
    (hn : 1 ≤ n) (hpos : pos < 2 ^ 32)
    (hblocks : ¬ (size ≤ clusterSize disk ∧ ∀ j, j < n → pos + j * size < clusterSize disk)) :
    (fat16ReadBlocks disk priv record size n (s32 pos)).1 < 0 := by
  have hcs := MountedVolume.size_lt disk
  induction n generalizing pos with
  | zero => omega
  | succ n ih =>
    have hread := fat16ReadInternal_eq hv hc2 hc hfit hsize hpos
    unfold fat16ReadBlocks
    rw [hcluster]
    by_cases hfirst : pos < clusterSize disk ∧ size ≤ clusterSize disk
    · -- a later block starts outside the first cluster
      rw [if_pos hfirst] at hread
      have hlater : ¬ (size ≤ clusterSize disk ∧ ∀ j, j < n → pos + size + j * size < clusterSize disk) := by
        rintro ⟨_, hrest⟩
        refine hblocks ⟨hfirst.2, fun j hj => ?_⟩
        cases j with
        | zero => simpa using hfirst.1
        | succ j =>
          rw [Nat.succ_mul, Nat.add_comm (j * size), ← Nat.add_assoc]
          exact hrest j (by omega)
      have hpos' : 1 ≤ n := by
        by_contra hzero
        exact hlater ⟨hfirst.2, fun j hj => by omega⟩
      have hrest := ih hpos' (show pos + size < 2 ^ 32 by omega) hlater
      rw [hread, u32OfInt_s32, u32_of_lt hpos]
      simp only [Int.lt_irrefl, if_false]
      exact hrest
    · rw [if_neg hfirst] at hread
      generalize fat16ReadInternal disk priv c (s32 pos) size = out at hread
      obtain ⟨res, bytes⟩ := out
      simp only at hread
      subst hread
      simp only [show (-eio : Int) < 0 by decide, if_true]

variable {vol : Volume} {s : Files H} {desc : FileDescriptor} {fd : Int}

/-- **What one `fread` does**: the bytes from the descriptor's position on, or an error. -/
theorem fread_outcome (hv : MountedVolume vol.disk priv) (hmounted : vol.mounted = some priv)
    (hfd : s.fileGetFd fd = some desc) (hitem : desc.priv.item.item ≠ 0)
    (hcluster : fat16GetFirstCluster desc.priv.item.record = c) (hc2 : 2 ≤ c) (hc : c < 0xFFF0)
    (hfit : clusterStart vol.disk c + clusterSize vol.disk ≤ 2 ^ 32) (hpos : desc.priv.pos < 2 ^ 32) (op : ReadOp) :
    ∃ res ram, fread vol op.ptr op.size op.nmemb fd s = .ok (res, {s with ram := ram}) ∧
      (op.Served vol.disk desc.priv.pos → 0 ≤ res ∧
        diskBytes ram.mem op.ptr op.total = streamBytes vol.disk (clusterStart vol.disk c + desc.priv.pos) op.total) ∧
      (¬ op.Served vol.disk desc.priv.pos → res < 0) := by
  have hcs := MountedVolume.size_lt vol.disk
  have hfd' : ¬ fd < 1 := by
    intro hlt
    unfold Files.fileGetFd at hfd
    rw [if_pos (.inl hlt)] at hfd
    cases hfd
  unfold fread
  by_cases hzero : op.size = 0 ∨ op.nmemb = 0 ∨ fd < 1
  · rw [if_pos hzero]
    refine ⟨-einvarg, s.ram, rfl, fun hserved => ?_, fun _ => by decide⟩
    have := hserved.size.1
    have := hserved.nmemb
    omega
  have hsize : 0 < op.size := by omega
  have hnmemb : 1 ≤ op.nmemb := by omega
  rw [if_neg hzero, bind_apply, get_apply]
  simp only [hfd, hmounted]
  rw [when_false hitem]
  refine ⟨_, _, rfl, fun hserved => ?_, fun hnot => ?_⟩
  · have hread := fat16ReadBlocks_first hv hcluster hc2 hc hfit hsize hserved.size.2 op.nmemb hserved.blocks
    -- the blocks are at least a byte each and start in one cluster
    have hfew : op.nmemb < 2 ^ 31 := by
      have hlast := hserved.blocks (op.nmemb - 1) (by omega)
      have hmul := Nat.le_mul_of_pos_right (op.nmemb - 1) hsize
      omega
    have hdone : fat16Read vol.disk priv ⟨desc.priv.item.record, desc.priv.pos⟩ op.size op.nmemb =
        ((op.nmemb : Int), streamBytes vol.disk (clusterStart vol.disk c + desc.priv.pos) op.total) := by
      unfold fat16Read
      simp only [hread, Int.lt_irrefl, if_false, s32_of_lt hfew]
      rfl
    rw [hdone]
    refine ⟨by omega, ?_⟩
    have hback := diskBytes_store s.ram.mem op.ptr
      (streamBytes vol.disk (clusterStart vol.disk c + desc.priv.pos) op.total)
    rwa [length_streamBytes] at hback
  · have hread := fat16ReadBlocks_fails hv hcluster hc2 hc hfit hsize op.nmemb hnmemb hpos fun h =>
      hnot ⟨⟨hsize, h.1⟩, hnmemb, h.2⟩
    unfold fat16Read
    generalize fat16ReadBlocks vol.disk priv desc.priv.item.record op.size op.nmemb (s32 desc.priv.pos) = out at hread
    obtain ⟨res, bytes⟩ := out
    simp only [if_pos (show res < 0 from hread)]
    exact hread

/-! ### The stream -/

/-- The file as the driver has it open: on the volume, and by a descriptor with a copy of its
record. -/
structure OpenOn (vol : Volume) (s : Files H) (fd : Int) (desc : FileDescriptor) (chain : List Nat) : Prop where
  found : s.fileGetFd fd = some desc
  id : (desc.id : Int) = fd
  type : desc.priv.item.type = fatItemTypeFile
  item : desc.priv.item.item ≠ 0
  pos : desc.priv.pos < 2 ^ 32
  mounted : ∃ priv, vol.mounted = some priv ∧ MountedVolume vol.disk priv
  file : FileOnVolume vol.disk desc.priv.item.record chain

theorem OpenOn.cluster {chain : List Nat} (h : OpenOn vol s fd desc chain) :
    ∃ c rest, chain = c :: rest ∧ c = desc.priv.item.record.low16BitsFirstCluster ∧
      fat16GetFirstCluster desc.priv.item.record = c ∧ 2 ≤ c ∧ c < 0xFFF0 ∧
      clusterStart vol.disk c + clusterSize vol.disk ≤ 2 ^ 32 := by
  obtain ⟨⟨hhigh, hhead⟩, _, hclusters, _⟩ := h.file
  cases chain with
  | nil => cases hhead
  | cons c rest =>
    rw [List.head?_cons, Option.some.injEq] at hhead
    obtain ⟨hc2, hc, hfit⟩ := hclusters c (List.mem_cons_self ..)
    exact ⟨c, rest, rfl, hhead, by rw [fat16GetFirstCluster, hhigh, Nat.zero_or, hhead], hc2, hc, hfit⟩

/-- Bytes read at one place are the file's at another. -/
theorem streamBytes_eq_slice {disk : Memory} {a k n : Nat} {content : List UInt8} :
    streamBytes disk a n = (content.drop k).take n ↔ ∀ i, i < n → content[k + i]? = some (disk (u32 (a + i))) := by
  rw [List.ext_getElem?_iff]
  constructor
  · intro h i hi
    have hbyte := h i
    rw [List.getElem?_take_of_lt hi, List.getElem?_drop] at hbyte
    rw [← hbyte]
    simp [streamBytes, hi]
  · intro h i
    by_cases hi : i < n
    · rw [List.getElem?_take_of_lt hi, List.getElem?_drop, h i hi]
      simp [streamBytes, hi]
    · rw [List.getElem?_eq_none (by rw [length_streamBytes]; omega),
        List.getElem?_eq_none (by rw [List.length_take]; omega)]

section Steps

variable {content : List UInt8} {fileSize done : Nat} {op : ReadOp} {ops : List ReadOp}

/-- A read that is not served leaves the others in step. -/
theorem inStep_skip (h : ¬ op.Served disk pos) :
    InStep disk c content fileSize pos done (op :: ops) ↔ InStep disk c content fileSize pos done ops := by
  unfold InStep
  rw [List.filter_cons_of_neg (by simpa using h)]

/-- One that is served is in step itself, and the others behind it. -/
theorem inStep_serve (h : op.Served disk pos) : InStep disk c content fileSize pos done (op :: ops) ↔
    op.InStep disk c content fileSize pos done ∧ InStep disk c content fileSize pos (done + op.total) ops := by
  unfold InStep
  rw [List.filter_cons_of_pos (by simpa using h)]
  constructor
  · refine fun hall => ⟨hall [] op _ rfl, fun before op' after heq => ?_⟩
    have hstep := hall (op :: before) op' after (by rw [heq]; rfl)
    rwa [readTotal, List.map_cons, List.sum_cons, ← Nat.add_assoc] at hstep
  · rintro ⟨hfirst, hrest⟩ before op' after heq
    cases before with
    | nil =>
      obtain ⟨rfl, _⟩ := List.cons_eq_cons.mp heq
      exact hfirst
    | cons first before =>
      obtain ⟨rfl, hbehind⟩ := List.cons_eq_cons.mp heq
      rw [readTotal, List.map_cons, List.sum_cons, ← Nat.add_assoc]
      exact hrest before op' after hbehind

/-- What the driver has behind `pos` of a file is on the disk behind its place there. -/
theorem byteBehind_eq {rest : List Nat} (hfit : clusterStart disk c + clusterSize disk ≤ 2 ^ 32) (i : Nat) :
    byteBehind disk c (fileBytes disk (c :: rest)) pos i = some (disk (u32 (clusterStart disk c + pos + i))) := by
  unfold byteBehind
  split
  · rw [fileBytes_first disk c rest ‹_›, u32_of_lt (by omega), Nat.add_assoc]
  · rfl

/-- The bytes at the one position are those of the stream just when the read is in step. -/
theorem readInStep_iff {rest : List Nat} (hfit : clusterStart disk c + clusterSize disk ≤ 2 ^ 32) :
    op.InStep disk c (fileBytes disk (c :: rest)) fileSize pos done ↔ pos + done + op.total ≤ fileSize ∧
      streamBytes disk (clusterStart disk c + pos) op.total =
        ((fileBytes disk (c :: rest)).drop (pos + done)).take op.total := by
  rw [streamBytes_eq_slice]
  refine ⟨fun h => ⟨h.inside, fun i hi => ?_⟩, fun h => ⟨h.1, fun i hi => ?_⟩⟩
  · rw [h.repeats i hi, byteBehind_eq hfit]
  · rw [h.2 i hi, byteBehind_eq hfit]

end Steps

/-- The reads are a stream from `done` bytes on exactly when they are in step. -/
theorem freads_stream {chain : List Nat} (h : OpenOn vol s fd desc chain) (ops : List ReadOp) (done : Nat) :
    ∃ outs s', freads vol fd ops s = .ok (outs, s') ∧
      (StreamsFrom (fileBytes vol.disk chain) desc.priv.item.record.fileSize (desc.priv.pos + done) (ops.zip outs) ↔
        InStep vol.disk desc.priv.item.record.low16BitsFirstCluster (fileBytes vol.disk chain)
          desc.priv.item.record.fileSize desc.priv.pos done ops) := by
  obtain ⟨c, rest, rfl, hlow, hcluster, hc2, hc, hfit⟩ := h.cluster
  obtain ⟨priv, hmounted, hv⟩ := h.mounted
  -- one read after another; the descriptor stays as it is
  induction ops generalizing s done with
  | nil =>
    refine ⟨[], s, rfl, iff_of_true trivial fun before op after heq => ?_⟩
    cases before <;> cases heq
  | cons op ops ih =>
    obtain ⟨res, ram, hread, hserved, hfails⟩ := fread_outcome hv hmounted h.found h.item hcluster hc2 hc hfit h.pos op
    have hnext : OpenOn vol {s with ram := ram} fd desc (c :: rest) :=
      ⟨h.found, h.id, h.type, h.item, h.pos, h.mounted, h.file⟩
    by_cases hok : op.Served vol.disk desc.priv.pos
    · obtain ⟨hres, hbytes⟩ := hserved hok
      obtain ⟨outs, s', hrun, hiff⟩ := ih (done + op.total) hnext
      refine ⟨(res, diskBytes ram.mem op.ptr op.total) :: outs, s', ?_, ?_⟩
      · unfold freads
        rw [bind_apply, hread]
        simp only [bind_apply, get_apply, hrun]
        rfl
      · rw [List.zip_cons_cons]
        unfold StreamsFrom
        rw [if_pos hres, inStep_serve hok, ← hiff, ← hlow, readInStep_iff hfit, ← hbytes, ← Nat.add_assoc, and_assoc]
    · have hres := hfails hok
      obtain ⟨outs, s', hrun, hiff⟩ := ih done hnext
      refine ⟨(res, diskBytes ram.mem op.ptr op.total) :: outs, s', ?_, ?_⟩
      · unfold freads
        rw [bind_apply, hread]
        simp only [bind_apply, get_apply, hrun]
        rfl
      · rw [List.zip_cons_cons]
        unfold StreamsFrom
        rw [if_neg (by omega), inStep_skip hok, ← hiff]

/-! ### After a seek -/

/-- The position the first read starts at: where the descriptor is, or where a seek inside
the file put it. -/
def startOf (desc : FileDescriptor) : Option Nat → Nat
  | none => desc.priv.pos
  | some offset => if offset < desc.priv.item.record.fileSize then offset else desc.priv.pos

def FileDescriptor.movedTo (desc : FileDescriptor) (pos : Nat) : FileDescriptor :=
  {desc with priv := {desc.priv with pos := pos}}

/-- A descriptor that was found is found again when it has been stored. -/
theorem Files.fileGetFd_put (hfound : s.fileGetFd fd = some desc) (hid : (desc.id : Int) = fd) (d : FileDescriptor) :
    (s.put (desc.id - 1) (some d)).fileGetFd fd = some d := by
  have hindex : desc.id - 1 = fd.toNat - 1 := by omega
  unfold Files.fileGetFd at hfound ⊢
  split at hfound
  · cases hfound
  · rename_i hrange
    rw [if_neg hrange, hindex]
    exact Function.update_self ..

theorem fseek_set {chain : List Nat} (h : OpenOn vol s fd desc chain) (offset : Nat) :
    ∃ res s', fseek fd offset .seekSet s = .ok (res, s') ∧
      OpenOn vol s' fd (desc.movedTo (startOf desc (some offset))) chain := by
  have hfound := Files.fileGetFd_put h.found h.id
  have hpos := h.file.size.2
  unfold fseek inRam
  rw [bind_apply, get_apply]
  simp only [h.found]
  unfold fat16Seek
  rw [if_neg (not_not.mpr h.type), when_false h.item]
  by_cases hin : offset < desc.priv.item.record.fileSize
  · rw [if_neg (by omega), show startOf desc (some offset) = offset from if_pos hin]
    exact ⟨0, _, rfl, hfound _, h.id, h.type, h.item, (show offset < 2 ^ 32 by omega), h.mounted, h.file⟩
  · rw [if_pos (by omega), show startOf desc (some offset) = desc.priv.pos from if_neg hin]
    exact ⟨-eio, _, rfl, hfound _, h.id, h.type, h.item, h.pos, h.mounted, h.file⟩

/-- **Reads after an optional seek are a stream over the file exactly when** the file repeats itself in step with
those the driver serves: each ends inside the file, where the file has the bytes of the one position they all start from. -/
theorem fread_stream_iff {chain : List Nat} (h : OpenOn vol s fd desc chain) (seek : Option Nat) (ops : List ReadOp) :
    ∃ outs s', seekAndRead vol fd seek ops s = .ok (outs, s') ∧
      (StreamsFrom (fileBytes vol.disk chain) desc.priv.item.record.fileSize (startOf desc seek) (ops.zip outs) ↔
        InStep vol.disk desc.priv.item.record.low16BitsFirstCluster (fileBytes vol.disk chain)
          desc.priv.item.record.fileSize (startOf desc seek) 0 ops) := by
  cases seek with
  | none => exact freads_stream h ops 0
  | some offset =>
    obtain ⟨res, s₁, hseek, hmoved⟩ := fseek_set h offset
    obtain ⟨outs, s', hrun, hiff⟩ := freads_stream hmoved ops 0
    refine ⟨outs, s', ?_, hiff⟩
    show (fseek fd offset .seekSet >>= fun _ => freads vol fd ops) s = _
    rw [bind_apply, hseek]
    exact hrun

/-! ### A small file -/

def smallVolume : Volume := ⟨smallDisk, some smallPrivate⟩

/-- The small file, open as descriptor 1. -/
def smallDescriptor : FileDescriptor := ⟨0x1000, 1, ⟨0x2000, ⟨0x3000, 0x4000, smallItem, fatItemTypeFile⟩, 0⟩⟩

def smallFiles : Files Ladder := ⟨⟨⟨0, []⟩, fun _ => 0⟩, fun i => if i = 0 then some smallDescriptor else none⟩

theorem smallFiles_open : OpenOn smallVolume smallFiles 1 smallDescriptor [2, 3] :=
  ⟨rfl, rfl, rfl, by decide, by decide, ⟨smallPrivate, rfl, smallDisk_mounted⟩, smallItem_onVolume⟩

/-- Reads of 256 bytes, of more than a cluster, and of two blocks of 128. -/
def smallReads : List ReadOp := [⟨0x9000, 256, 1⟩, ⟨0x9000, 600, 1⟩, ⟨0x9100, 128, 2⟩]

/-- The file repeats itself after 256 bytes. -/
theorem smallReads_inStep : InStep smallDisk 2 (fileBytes smallDisk [2, 3]) 1024 0 0 smallReads := by
  have hfirst : (⟨0x9000, 256, 1⟩ : ReadOp).Served smallDisk 0 := by decide
  have hlong : ¬ (⟨0x9000, 600, 1⟩ : ReadOp).Served smallDisk 0 := fun h => absurd h.size.2 (by decide)
  have hblocks : (⟨0x9100, 128, 2⟩ : ReadOp).Served smallDisk 0 := by decide
  have hbytes : ∀ i, i < 256 → (fileBytes smallDisk [2, 3])[256 + i]? = (fileBytes smallDisk [2, 3])[i]? := by
    decide +kernel
  have hbehind : ∀ i, i < 256 →
      byteBehind smallDisk 2 (fileBytes smallDisk [2, 3]) 0 i = (fileBytes smallDisk [2, 3])[i]? := fun i hi => by
    have hcluster : clusterSize smallDisk = 512 := by decide
    unfold byteBehind
    rw [if_pos (by omega), Nat.zero_add]
  refine (inStep_serve hfirst).mpr ⟨⟨by decide, fun i hi => ?_⟩, (inStep_skip hlong).mpr ((inStep_serve hblocks).mpr
    ⟨⟨by decide, fun i hi => ?_⟩, fun before op after heq => ?_⟩)⟩
  · rw [hbehind i hi]
    simp only [Nat.zero_add]
  · rw [hbehind i hi, ← hbytes i hi]
    rfl
  · cases before <;> cases heq

/-- From the start on, three reads, two of them served: together they deliver the first 512 bytes. -/
theorem fread_stream_three_reads : ∃ outs s', seekAndRead smallVolume 1 (some 0) smallReads smallFiles = .ok (outs, s') ∧
    StreamsFrom (fileBytes smallDisk [2, 3]) 1024 0 (smallReads.zip outs) := by
  obtain ⟨outs, s', hrun, hiff⟩ := fread_stream_iff smallFiles_open (some 0) smallReads
  exact ⟨outs, s', hrun, hiff.mpr smallReads_inStep⟩

/-- **A second read delivers the bytes of the first**: four bytes and four again. -/
theorem fread_repeats : ¬ ∀ (H : Type) (vol : Volume) (s : Files H) (fd : Int) (desc : FileDescriptor)
    (chain : List Nat),
    OpenOn vol s fd desc chain → ∀ (seek : Option Nat) (ops : List ReadOp) (outs : List (Int × List UInt8))
      (s' : Files H),
    seekAndRead vol fd seek ops s = .ok (outs, s') →
    StreamsFrom (fileBytes vol.disk chain) desc.priv.item.record.fileSize (startOf desc seek) (ops.zip outs) := by
  intro h
  obtain ⟨outs, s', hrun, hiff⟩ := freads_stream smallFiles_open [⟨0x9000, 4, 1⟩, ⟨0x9000, 4, 1⟩] 0
  have hserved : (⟨0x9000, 4, 1⟩ : ReadOp).Served smallDisk 0 := by decide
  have hsteps := hiff.mp (h Ladder smallVolume smallFiles 1 smallDescriptor [2, 3] smallFiles_open none _ outs s' hrun)
  obtain ⟨_, hsecond⟩ := (inStep_serve hserved).mp hsteps
  have hbyte := ((inStep_serve hserved).mp hsecond).1.repeats 0 (by decide)
  exact absurd hbyte (by decide +kernel)

end BasicOS
