import BasicOS.Memory.KHeap

/-! Segment descriptors, as `gdt.c` writes them.

A descriptor has its base and limit scattered over eight bytes. A limit above 65536 is kept in
pages: its low 12 bits are dropped, which loses nothing where they are all ones, and a limit whose
are not is refused. What the processor decodes is then what was asked for
(`unpack_decodes`), whatever the table held. -/
namespace BasicOS
open Lib Program

/-- `struct gdt_entry_structured`. -/
structure GdtEntryStructured where
  base : UInt32
  limit : UInt32
  accessByte : UInt8
deriving DecidableEq

def setByte (a : Nat) (c : UInt8) : Program Stop Memory Unit := modify fun m => Function.update m a c

/-- `encode_gdt_entry`. -/
def encodeGdtEntry (target : Nat) (src : GdtEntryStructured) : Program Stop Memory Unit := do
  when (src.limit > 65536 ∧ src.limit &&& 0xFFF ≠ 0xFFF) (stop (.panic "Encode GDT: Invalid argument.\n"))
  setByte (target + 6) 0x40
  when (src.limit > 65536) (setByte (target + 6) 0xC0)
  let limit := if src.limit > 65536 then src.limit >>> 12 else src.limit
  setByte target (limit &&& 0xFF).toUInt8
  setByte (target + 1) ((limit >>> 8) &&& 0xFF).toUInt8
  setByte (target + 6) ((← get) (target + 6) ||| ((limit >>> 16) &&& 0x0F).toUInt8)
  setByte (target + 2) (src.base &&& 0xFF).toUInt8
  setByte (target + 3) ((src.base >>> 8) &&& 0xFF).toUInt8
  setByte (target + 4) ((src.base >>> 16) &&& 0xFF).toUInt8
  setByte (target + 7) ((src.base >>> 24) &&& 0xFF).toUInt8
  setByte (target + 5) src.accessByte

/-- `unpack_structured_gdt`, with the entries from the one that is encoded at `gdt` on. -/
def unpackStructuredGdt : List GdtEntryStructured → Nat → Program Stop Memory Unit
  | [], _ => return ()
  | src :: sGdt, gdt => do
    encodeGdtEntry gdt src
    unpackStructuredGdt sGdt (gdt + 8)

/-- The limit cannot be kept in pages. -/
def GdtEntryStructured.Refused (e : GdtEntryStructured) : Prop := e.limit > 65536 ∧ e.limit &&& 0xFFF ≠ 0xFFF

instance (e : GdtEntryStructured) : Decidable e.Refused := inferInstanceAs (Decidable (_ ∧ _))

/-! ### What the processor makes of a descriptor -/

def descriptorBase (m : Memory) (a : Nat) : Nat :=
  (m (a + 2)).toNat + 2 ^ 8 * (m (a + 3)).toNat + 2 ^ 16 * (m (a + 4)).toNat + 2 ^ 24 * (m (a + 7)).toNat

/-- The limit of 20 bits as it is kept. -/
def descriptorRawLimit (m : Memory) (a : Nat) : Nat :=
  (m a).toNat + 2 ^ 8 * (m (a + 1)).toNat + 2 ^ 16 * ((m (a + 6)).toNat % 2 ^ 4)

/-- In pages where the granularity bit is set. -/
def descriptorLimit (m : Memory) (a : Nat) : Nat :=
  if (m (a + 6)).toNat.testBit 7 then descriptorRawLimit m a * 4096 + 4095 else descriptorRawLimit m a

def decodeDescriptor (m : Memory) (a : Nat) : GdtEntryStructured :=
  ⟨UInt32.ofNat (descriptorBase m a), UInt32.ofNat (descriptorLimit m a), m (a + 5)⟩

/-- The descriptors of a table. -/
def decodeTable (m : Memory) (gdt entries : Nat) : List GdtEntryStructured :=
  (List.range entries).map fun i => decodeDescriptor m (gdt + 8 * i)

variable {m m' : Memory} {target gdt : Nat} {src : GdtEntryStructured}

/-! ### Bytes -/

theorem toNat_byte (x : UInt32) {k : UInt32} (hk : k.toNat < 32) :
    ((x >>> k) &&& 0xFF).toUInt8.toNat = x.toNat / 2 ^ k.toNat % 2 ^ 8 := by
  rw [UInt32.toNat_toUInt8, UInt32.toNat_and, UInt32.toNat_shiftRight, Nat.mod_eq_of_lt hk, Nat.shiftRight_eq_div_pow]
  show (_ &&& (2 ^ 8 - 1)) % 2 ^ 8 = _
  rw [Nat.and_two_pow_sub_one_eq_mod, Nat.mod_mod]

theorem toNat_lowByte (x : UInt32) : (x &&& 0xFF).toUInt8.toNat = x.toNat % 2 ^ 8 := by
  rw [UInt32.toNat_toUInt8, UInt32.toNat_and]
  show (_ &&& (2 ^ 8 - 1)) % 2 ^ 8 = _
  rw [Nat.and_two_pow_sub_one_eq_mod, Nat.mod_mod]

/-- The flags and the limit bits share a byte. -/
theorem toNat_flags {x : UInt32} {flags : UInt8} (hflags : flags = 0x40 ∨ flags = 0xC0) :
    (flags ||| ((x >>> 16) &&& 0x0F).toUInt8).toNat = flags.toNat + x.toNat / 2 ^ 16 % 2 ^ 4 := by
  have hlow : ((x >>> 16) &&& 0x0F).toUInt8.toNat = x.toNat / 2 ^ 16 % 2 ^ 4 := by
    rw [UInt32.toNat_toUInt8, UInt32.toNat_and, UInt32.toNat_shiftRight, Nat.shiftRight_eq_div_pow]
    show (x.toNat / 2 ^ 16 &&& (2 ^ 4 - 1)) % 2 ^ 8 = _
    rw [Nat.and_two_pow_sub_one_eq_mod]
    omega
  have hlt : x.toNat / 2 ^ 16 % 2 ^ 4 < 2 ^ 4 := Nat.mod_lt _ (by decide)
  rw [UInt8.toNat_or, hlow]
  generalize x.toNat / 2 ^ 16 % 2 ^ 4 = low at hlt
  have hbits : low < 2 ^ 6 := Nat.lt_trans hlt (by decide)
  rcases hflags with rfl | rfl
  · exact (Nat.two_pow_add_eq_or_of_lt hbits 1).symm
  · exact (Nat.two_pow_add_eq_or_of_lt hbits 3).symm

/-! ### One descriptor -/

/-- A byte of the descriptor is written. -/
theorem frame_setByte (h : SameOutside ⟨target, 8⟩ m m') {k : Nat} (hk : k < 8) (c : UInt8) :
    SameOutside ⟨target, 8⟩ m (Function.update m' (target + k) c) := by
  refine h.trans fun b hb => Function.update_of_ne ?_ ..
  rw [Extent.holds_mk] at hb
  omega

/-- The limit as it is kept, and its flags. -/
def keptLimit (limit : UInt32) : UInt32 := if limit > 65536 then limit >>> 12 else limit

def limitFlags (limit : UInt32) : UInt8 := if limit > 65536 then 0xC0 else 0x40

/-- The eight bytes of a descriptor. -/
structure Encoded (m : Memory) (a : Nat) (src : GdtEntryStructured) : Prop where
  limit0 : m a = (keptLimit src.limit &&& 0xFF).toUInt8
  limit1 : m (a + 1) = ((keptLimit src.limit >>> 8) &&& 0xFF).toUInt8
  base0 : m (a + 2) = (src.base &&& 0xFF).toUInt8
  base1 : m (a + 3) = ((src.base >>> 8) &&& 0xFF).toUInt8
  base2 : m (a + 4) = ((src.base >>> 16) &&& 0xFF).toUInt8
  access : m (a + 5) = src.accessByte
  flags : m (a + 6) = limitFlags src.limit ||| ((keptLimit src.limit >>> 16) &&& 0x0F).toUInt8
  base3 : m (a + 7) = ((src.base >>> 24) &&& 0xFF).toUInt8

theorem encodeGdtEntry_refused (h : src.Refused) :
    encodeGdtEntry target src m = .error (.panic "Encode GDT: Invalid argument.\n") := by
  unfold encodeGdtEntry
  rw [when_true (show src.limit > 65536 ∧ src.limit &&& 0xFFF ≠ 0xFFF from h)]
  rfl

theorem frame_encode (h : SameOutside ⟨target, 8⟩ m m') {c0 c1 c6 c2 c3 c4 c7 c5 : UInt8} : SameOutside ⟨target, 8⟩ m
    (Function.update (Function.update (Function.update (Function.update (Function.update (Function.update
      (Function.update (Function.update m' target c0) (target + 1) c1) (target + 6) c6) (target + 2) c2)
      (target + 3) c3) (target + 4) c4) (target + 7) c7) (target + 5) c5) := by
  have h0 := frame_setByte h (show 0 < 8 by decide) c0
  have h1 := frame_setByte (frame_setByte h0 (show 1 < 8 by decide) c1) (show 6 < 8 by decide) c6
  have h2 := frame_setByte (frame_setByte h1 (show 2 < 8 by decide) c2) (show 3 < 8 by decide) c3
  exact frame_setByte (frame_setByte (frame_setByte h2 (by decide) c4) (by decide) c7) (by decide) c5

theorem encodeGdtEntry_spec (h : ¬ src.Refused) : ∃ m', encodeGdtEntry target src m = .ok ((), m') ∧
    Encoded m' target src ∧ SameOutside ⟨target, 8⟩ m m' := by
  unfold encodeGdtEntry
  rw [when_false (show ¬ (src.limit > 65536 ∧ src.limit &&& 0xFFF ≠ 0xFFF) from h), pure_bind]
  by_cases hlarge : src.limit > 65536
  · rw [when_true hlarge]
    refine ⟨_, rfl, ?_, ?_⟩
    · constructor <;> simp [keptLimit, limitFlags, hlarge]
    · exact frame_encode (frame_setByte (frame_setByte (SameOutside.refl _ m) (show 6 < 8 by decide) 0x40)
        (show 6 < 8 by decide) 0xC0)
  · rw [when_false hlarge]
    refine ⟨_, rfl, ?_, ?_⟩
    · constructor <;> simp [keptLimit, limitFlags, hlarge]
    · exact frame_encode (frame_setByte (SameOutside.refl _ m) (show 6 < 8 by decide) 0x40)

theorem Encoded.base (h : Encoded m target src) : descriptorBase m target = src.base.toNat := by
  have hlt := src.base.toNat_lt
  unfold descriptorBase
  rw [h.base0, h.base1, h.base2, h.base3, toNat_lowByte, toNat_byte _ (by decide), toNat_byte _ (by decide),
    toNat_byte _ (by decide)]
  show src.base.toNat % 2 ^ 8 + 2 ^ 8 * (src.base.toNat / 2 ^ 8 % 2 ^ 8) + 2 ^ 16 * (src.base.toNat / 2 ^ 16 % 2 ^ 8) +
    2 ^ 24 * (src.base.toNat / 2 ^ 24 % 2 ^ 8) = src.base.toNat
  omega

theorem limitFlags_or (limit : UInt32) : limitFlags limit = 0x40 ∨ limitFlags limit = 0xC0 := by
  unfold limitFlags
  split
  · exact .inr rfl
  · exact .inl rfl

/-- The granularity bit. -/
theorem testBit_flags {low : Nat} (hlow : low < 2 ^ 4) (limit : UInt32) :
    ((limitFlags limit).toNat + low).testBit 7 = decide (limit > 65536) := by
  rw [Nat.testBit_eq_decide_div_mod_eq]
  unfold limitFlags
  by_cases hlarge : limit > 65536
  · rw [if_pos hlarge, decide_eq_true hlarge]
    show decide ((192 + low) / 2 ^ 7 % 2 = 1) = true
    exact decide_eq_true (by omega)
  · rw [if_neg hlarge, decide_eq_false hlarge]
    show decide ((64 + low) / 2 ^ 7 % 2 = 1) = false
    exact decide_eq_false (by omega)

theorem keptLimit_lt (limit : UInt32) : (keptLimit limit).toNat < 2 ^ 20 := by
  have hlt := limit.toNat_lt
  unfold keptLimit
  split
  · rw [UInt32.toNat_shiftRight, Nat.shiftRight_eq_div_pow]
    show limit.toNat / 2 ^ 12 < 2 ^ 20
    omega
  · rename_i hsmall
    rw [gt_iff_lt, UInt32.lt_iff_toNat_lt] at hsmall
    change ¬ 65536 < limit.toNat at hsmall
    omega

theorem Encoded.limit (h : Encoded m target src) (hfits : ¬ src.Refused) :
    descriptorLimit m target = src.limit.toNat := by
  have hkept := keptLimit_lt src.limit
  have hflags := limitFlags_or src.limit
  have hlow : (keptLimit src.limit).toNat / 2 ^ 16 % 2 ^ 4 < 2 ^ 4 := Nat.mod_lt _ (by decide)
  have hraw : descriptorRawLimit m target = (keptLimit src.limit).toNat := by
    have hnibble : (limitFlags src.limit).toNat % 2 ^ 4 = 0 := by
      rcases hflags with hflags | hflags <;> rw [hflags] <;> rfl
    unfold descriptorRawLimit
    rw [h.limit0, h.limit1, h.flags, toNat_lowByte, toNat_byte _ (by decide), toNat_flags hflags]
    show (keptLimit src.limit).toNat % 2 ^ 8 + 2 ^ 8 * ((keptLimit src.limit).toNat / 2 ^ 8 % 2 ^ 8) + _ = _
    omega
  unfold descriptorLimit
  rw [hraw, h.flags, toNat_flags hflags, testBit_flags hlow]
  unfold keptLimit
  by_cases hlarge : src.limit > 65536
  · have hones : src.limit.toNat % 2 ^ 12 = 0xFFF := by
      have hmask : src.limit &&& 0xFFF = 0xFFF := by
        by_contra hne
        exact hfits ⟨hlarge, hne⟩
      have hnat := congrArg UInt32.toNat hmask
      rw [UInt32.toNat_and] at hnat
      change src.limit.toNat &&& (2 ^ 12 - 1) = 0xFFF at hnat
      rwa [Nat.and_two_pow_sub_one_eq_mod] at hnat
    rw [if_pos (decide_eq_true hlarge), if_pos hlarge, UInt32.toNat_shiftRight, Nat.shiftRight_eq_div_pow]
    show src.limit.toNat / 2 ^ 12 * 4096 + 4095 = _
    omega
  · rw [if_neg (by rw [decide_eq_true_iff]; exact hlarge), if_neg hlarge]

/-- A descriptor decodes to what was encoded. -/
theorem Encoded.decodes (h : Encoded m target src) (hfits : ¬ src.Refused) : decodeDescriptor m target = src := by
  unfold decodeDescriptor
  rw [h.base, h.limit hfits, h.access, UInt32.ofNat_toNat, UInt32.ofNat_toNat]

/-! ### The table -/

/-- A descriptor depends on its own bytes. -/
theorem decodeDescriptor_congr (h : ∀ b, target ≤ b → b < target + 8 → m' b = m b) :
    decodeDescriptor m' target = decodeDescriptor m target := by
  unfold decodeDescriptor descriptorBase descriptorLimit descriptorRawLimit
  rw [h target (by omega) (by omega), h (target + 1) (by omega) (by omega), h (target + 2) (by omega) (by omega),
    h (target + 3) (by omega) (by omega), h (target + 4) (by omega) (by omega), h (target + 5) (by omega) (by omega),
    h (target + 6) (by omega) (by omega), h (target + 7) (by omega) (by omega)]

theorem decodeTable_succ (m : Memory) (gdt n : Nat) :
    decodeTable m gdt (n + 1) = decodeDescriptor m gdt :: decodeTable m (gdt + 8) n := by
  unfold decodeTable
  rw [List.range_succ_eq_map, List.map_cons, List.map_map]
  refine congrArg (decodeDescriptor m gdt :: ·) (List.map_congr_left fun i _ => ?_)
  show decodeDescriptor m (gdt + 8 * (i + 1)) = _
  rw [Nat.mul_succ, Nat.add_comm (8 * i), Nat.add_assoc]

theorem unpackStructuredGdt_refused {sGdt : List GdtEntryStructured} (h : ∃ e ∈ sGdt, e.Refused) (gdt : Nat)
    (m : Memory) : unpackStructuredGdt sGdt gdt m = .error (.panic "Encode GDT: Invalid argument.\n") := by
  induction sGdt generalizing gdt m with
  | nil =>
    obtain ⟨e, he, _⟩ := h
    exact absurd he List.not_mem_nil
  | cons src sGdt ih =>
    unfold unpackStructuredGdt
    rw [bind_apply]
    by_cases hsrc : src.Refused
    · rw [encodeGdtEntry_refused hsrc]
    · obtain ⟨m', hrun, _⟩ := @encodeGdtEntry_spec m gdt src hsrc
      obtain ⟨e, he, hrefused⟩ := h
      rw [hrun]
      rcases List.mem_cons.mp he with rfl | he
      · exact absurd hrefused hsrc
      · exact ih ⟨e, he, hrefused⟩ (gdt + 8) m'

theorem unpackStructuredGdt_spec {sGdt : List GdtEntryStructured} (h : ∀ e ∈ sGdt, ¬ e.Refused) (gdt : Nat)
    (m : Memory) : ∃ m', unpackStructuredGdt sGdt gdt m = .ok ((), m') ∧ decodeTable m' gdt sGdt.length = sGdt ∧
      SameOutside ⟨gdt, 8 * sGdt.length⟩ m m' := by
  induction sGdt generalizing gdt m with
  | nil => exact ⟨m, rfl, rfl, SameOutside.refl _ m⟩
  | cons src sGdt ih =>
    have hsrc := h src (List.mem_cons_self ..)
    obtain ⟨m₁, hrun, hencoded, hframe⟩ := @encodeGdtEntry_spec m gdt src hsrc
    obtain ⟨m', hrest, htable, hframe'⟩ := ih (fun e he => h e (List.mem_cons_of_mem src he)) (gdt + 8) m₁
    refine ⟨m', ?_, ?_, ?_⟩
    · unfold unpackStructuredGdt
      rw [bind_apply, hrun]
      exact hrest
    · have hkept : ∀ b, gdt ≤ b → b < gdt + 8 → m' b = m₁ b := fun b _ hb =>
        hframe' b (by rw [Extent.holds_mk]; omega)
      rw [List.length_cons, decodeTable_succ, htable, decodeDescriptor_congr hkept, hencoded.decodes hsrc]
    · refine (hframe.mono ?_).trans (hframe'.mono ?_)
      · intro b hb
        rw [Extent.holds_mk] at hb ⊢
        rw [List.length_cons]
        omega
      · intro b hb
        rw [Extent.holds_mk] at hb ⊢
        rw [List.length_cons]
        omega

/-- **A descriptor table decodes to what was asked for.** For every table of entries, wherever it is
written and whatever was there, `unpack_structured_gdt` panics exactly where some entry has a limit
above 65536 with low 12 bits that are not all ones; exactly where there is none it returns, the
processor decodes the table to the entries, and nothing outside the table has changed. -/
theorem unpack_decodes (sGdt : List GdtEntryStructured) (gdt : Nat) (m : Memory) :
    (unpackStructuredGdt sGdt gdt m = .error (.panic "Encode GDT: Invalid argument.\n") ↔ ∃ e ∈ sGdt, e.Refused) ∧
      ((∃ m', unpackStructuredGdt sGdt gdt m = .ok ((), m') ∧ decodeTable m' gdt sGdt.length = sGdt ∧
        SameOutside ⟨gdt, 8 * sGdt.length⟩ m m') ↔ ∀ e ∈ sGdt, ¬ e.Refused) := by
  by_cases hrefused : ∃ e ∈ sGdt, e.Refused
  · have hpanic := unpackStructuredGdt_refused hrefused gdt m
    refine ⟨⟨fun _ => hrefused, fun _ => hpanic⟩, fun h => ?_, fun h => ?_⟩
    · obtain ⟨m', hrun, _⟩ := h
      rw [hpanic] at hrun
      cases hrun
    · obtain ⟨e, he, hfound⟩ := hrefused
      exact absurd hfound (h e he)
  · have hfits : ∀ e ∈ sGdt, ¬ e.Refused := fun e he h => hrefused ⟨e, he, h⟩
    have hspec := unpackStructuredGdt_spec hfits gdt m
    refine ⟨⟨fun h => ?_, fun h => absurd h hrefused⟩, fun _ => hfits, fun _ => hspec⟩
    obtain ⟨m', hrun, _⟩ := hspec
    rw [hrun] at h
    cases h

end BasicOS
