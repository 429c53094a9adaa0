import Mathlib.Data.List.DropRight
import BasicOS.Fs.Lookup
import BasicOS.CString

/-! The 8.3 names the driver writes.

`fat16_to_string` copies characters up to a zero or a blank, wherever that is, and
`fat16_get_full_relative_filename` calls it on the two fields of a record, which have no
terminator of their own. A name that fills its field runs on into the extension, an extension
that fills its field into what is behind it. `nameWritten` is what is written to the buffer;
`nameWritten_fields` says that the fields' name is written when nothing runs on, and
`fieldsWritten_iff` that it is not in any other case. -/
namespace BasicOS
open Lib

/-! ### The copy in memory -/

/-- The loop of `fat16_to_string`: the memory after it and `*out`. After `2 ^ 32` turns every
address has been written with a character that does not end the loop. -/
def fat16ToStringAt : Nat → Memory → Nat → Nat → Option (Memory × Nat)
  | 0, _, _, _ => none
  | fuel + 1, mem, out, input =>
    if mem input ≠ 0x00 ∧ mem input ≠ 0x20 then
      fat16ToStringAt fuel (Function.update mem out (mem input)) (u32 (out + 1)) (u32 (input + 1))
    else if mem input = 0x20 then some (Function.update mem out 0x00, out)
    else some (mem, out)

/-- `fat16_get_full_relative_filename` of the record at `item`. -/
def fat16GetFullRelativeFilenameAt (mem : Memory) (item out size : Nat) : Option Memory := do
  let (mem, outTmp) ← fat16ToStringAt (2 ^ 32) (fill mem out size 0x00) out item
  if mem (item + 8) ≠ 0x00 ∧ mem (item + 8) ≠ 0x20 then
    let (mem, _) ← fat16ToStringAt (2 ^ 32) (Function.update mem outTmp 0x2E) (u32 (outTmp + 1)) (item + 8)
    return mem
  else return mem

/-- A character that is copied. -/
def nameChar (c : UInt8) : Bool := !(c = 0x00 || c = 0x20)

theorem nameChar_iff {c : UInt8} : nameChar c = true ↔ c ≠ 0x00 ∧ c ≠ 0x20 := by
  simp [nameChar]

/-- The characters in front of the first that ends the loop are copied into a buffer of zeros. -/
theorem fat16ToStringAt_eq {mem : Memory} {xs : List UInt8} {fuel out input : Nat} (hfuel : xs.length < fuel)
    (hstored : Stored mem input xs) (hchars : ∀ c ∈ xs, nameChar c) (hend : ¬ nameChar (mem (input + xs.length)))
    (hinput : input + xs.length < 2 ^ 32) (hout : out + xs.length < 2 ^ 32)
    (hapart : out + xs.length ≤ input ∨ input + xs.length < out) (hzero : mem (out + xs.length) = 0) :
    fat16ToStringAt fuel mem out input = some (store mem out xs, out + xs.length) := by
  induction xs generalizing mem fuel out input with
  | nil =>
    obtain ⟨fuel, rfl⟩ := Nat.exists_eq_succ_of_ne_zero (Nat.ne_of_gt hfuel)
    rw [List.length_nil, Nat.add_zero] at hend hzero
    rw [nameChar_iff] at hend
    unfold fat16ToStringAt
    rw [if_neg hend, store_nil, List.length_nil, Nat.add_zero]
    split
    · rw [← hzero, Function.update_eq_self]
    · rfl
  | cons c rest ih =>
    obtain ⟨fuel, rfl⟩ := Nat.exists_eq_succ_of_ne_zero (Nat.ne_of_gt (Nat.zero_lt_of_lt hfuel))
    simp only [List.length_cons] at *
    have hfirst : mem input = c := hstored 0 (Nat.succ_pos _)
    have hchar : mem input ≠ 0x00 ∧ mem input ≠ 0x20 := by
      rw [hfirst]
      exact nameChar_iff.mp (hchars c (List.mem_cons_self ..))
    unfold fat16ToStringAt
    rw [if_pos hchar, u32_of_lt (by omega), u32_of_lt (by omega), ih (by omega) _ (fun d hd => hchars d (by simp [hd])),
      hfirst, store_update, Nat.add_assoc, Nat.add_comm 1]
    · rw [Function.update_of_ne (by omega), Nat.add_assoc, Nat.add_comm 1]
      exact hend
    · omega
    · omega
    · omega
    · rw [Function.update_of_ne (by omega), Nat.add_assoc, Nat.add_comm 1]
      exact hzero
    · intro i hi
      rw [Function.update_of_ne (by omega), Nat.add_assoc, Nat.add_comm 1]
      exact hstored (i + 1) (Nat.succ_lt_succ hi)

/-! ### What is written -/

/-- The characters written for a record whose bytes, and those behind it, are these. -/
def nameWritten (bytes : List UInt8) : List UInt8 :=
  if nameChar ((bytes.drop 8).headD 0) then bytes.takeWhile nameChar ++ 0x2E :: (bytes.drop 8).takeWhile nameChar
  else bytes.takeWhile nameChar

/-- It is the name that lookups compare. -/
theorem nameWritten_of_relative {items : List FatDirectoryItem} {i : Nat} {full : List UInt8}
    (h : fat16GetFullRelativeFilename items i = some full) :
    nameWritten ((items.drop i).flatMap FatDirectoryItem.bytes) = full := by
  have hcopy : ∀ {input name blank}, fat16ToString input = some (name, blank) → input.takeWhile nameChar = name := by
    intro input name blank hinput
    unfold fat16ToString at hinput
    split at hinput
    · cases hinput
    · cases hinput
      rfl
  unfold fat16GetFullRelativeFilename at h
  obtain ⟨⟨name, blank⟩, hname, hrest⟩ := Option.bind_eq_some_iff.mp h
  unfold nameWritten
  simp only [nameChar_iff, hcopy hname]
  simp only at hrest
  split at hrest
  · rename_i hext
    obtain ⟨⟨suffix, blank'⟩, hsuffix, hfull⟩ := Option.bind_eq_some_iff.mp hrest
    simp only at hfull
    split at hfull
    · cases hfull
    · cases hfull
      rw [if_pos hext, hcopy hsuffix]
  · rename_i hext
    split at hrest
    · cases hrest
    · cases hrest
      rw [if_neg hext]

/-- Where the characters end. -/
theorem takeWhile_ends {bytes : List UInt8} (h : ∃ c ∈ bytes, ¬ nameChar c) :
    (bytes.takeWhile nameChar).length < bytes.length ∧ ¬ nameChar (bytes.getD (bytes.takeWhile nameChar).length 0) := by
  induction bytes with
  | nil => simp at h
  | cons c rest ih =>
    by_cases hc : nameChar c
    · obtain ⟨d, hd, hdend⟩ := h
      have hrest : d ∈ rest := by
        rcases List.mem_cons.mp hd with rfl | hrest
        · exact absurd hc hdend
        · exact hrest
      rw [List.takeWhile_cons_of_pos hc, List.length_cons, List.length_cons, List.getD_cons_succ]
      exact ⟨Nat.succ_lt_succ (ih ⟨d, hrest, hdend⟩).1, (ih ⟨d, hrest, hdend⟩).2⟩
    · rw [List.takeWhile_cons_of_neg hc]
      exact ⟨Nat.succ_pos _, hc⟩

/-- The loop over stored bytes that end it. -/
theorem fat16ToStringAt_stored {mem : Memory} {bytes : List UInt8} {out input : Nat} (hstored : Stored mem input bytes)
    (hend : ∃ c ∈ bytes, ¬ nameChar c) (hinput : input + bytes.length ≤ 2 ^ 32)
    (hout : out + (bytes.takeWhile nameChar).length < 2 ^ 32)
    (hapart : out + (bytes.takeWhile nameChar).length ≤ input ∨ input + bytes.length ≤ out)
    (hzero : mem (out + (bytes.takeWhile nameChar).length) = 0) :
    fat16ToStringAt (2 ^ 32) mem out input =
      some (store mem out (bytes.takeWhile nameChar), out + (bytes.takeWhile nameChar).length) := by
  obtain ⟨hlt, hstop⟩ := takeWhile_ends hend
  have hchars : Stored mem input (bytes.takeWhile nameChar) := by
    rw [← List.takeWhile_append_dropWhile (p := nameChar) (l := bytes)] at hstored
    exact (stored_append.mp hstored).1
  refine fat16ToStringAt_eq (by omega) hchars (fun c hc => List.mem_takeWhile_imp hc) ?_ (by omega) hout
    (by omega) hzero
  rw [hstored _ hlt]
  exact hstop

/-- The characters of the record from `o` on go behind the text in the buffer. -/
theorem fat16ToStringAt_behind {mem : Memory} {bytes : List UInt8} {item out size : Nat} (text : List UInt8) (o : Nat)
    (hstored : Stored mem item bytes) (hitem : item + bytes.length ≤ 2 ^ 32) (hout : out + size ≤ 2 ^ 32)
    (hapart : item + bytes.length ≤ out ∨ out + size ≤ item) (hend : ∃ c ∈ bytes.drop o, ¬ nameChar c)
    (hlen : text.length + ((bytes.drop o).takeWhile nameChar).length < size) :
    fat16ToStringAt (2 ^ 32) (store (fill mem out size 0) out text) (out + text.length) (item + o) =
      some (store (fill mem out size 0) out (text ++ (bytes.drop o).takeWhile nameChar),
        out + (text ++ (bytes.drop o).takeWhile nameChar).length) := by
  have ho : o < bytes.length := by
    obtain ⟨c, hc, _⟩ := hend
    by_contra hshort
    rw [List.drop_eq_nil_of_le (Nat.le_of_not_lt hshort)] at hc
    cases hc
  -- the buffer is written, the record is not
  have hrecord : Stored (store (fill mem out size 0) out text) (item + o) (bytes.drop o) := by
    have hall : Stored (store (fill mem out size 0) out text) item bytes := by
      intro i hi
      rw [sameOutside_store _ out text _ (by rw [Extent.holds_mk]; omega),
        sameOutside_fill mem out size 0 _ (by rw [Extent.holds_mk]; omega)]
      exact hstored i hi
    rw [← List.take_append_drop o bytes] at hall
    have hdrop := (stored_append.mp hall).2
    rwa [List.length_take, Nat.min_eq_left (Nat.le_of_lt ho)] at hdrop
  rw [fat16ToStringAt_stored hrecord hend, store_append, List.length_append, Nat.add_assoc]
  · rw [List.length_drop]
    omega
  · omega
  · rw [List.length_drop]
    omega
  · rw [sameOutside_store _ out text _ (by rw [Extent.holds_mk]; omega), Nat.add_assoc]
    exact if_pos (by omega)

/-- **What is written**: the characters into the buffer of zeros. -/
theorem fat16GetFullRelativeFilenameAt_eq {mem : Memory} {bytes : List UInt8} {item out size : Nat}
    (hstored : Stored mem item bytes) (hend : ∃ c ∈ bytes.drop 8, ¬ nameChar c)
    (hlen : (nameWritten bytes).length < size) (hitem : item + bytes.length ≤ 2 ^ 32) (hout : out + size ≤ 2 ^ 32)
    (hapart : item + bytes.length ≤ out ∨ out + size ≤ item) :
    fat16GetFullRelativeFilenameAt mem item out size = some (store (fill mem out size 0) out (nameWritten bytes)) := by
  have hend₀ : ∃ c ∈ bytes.drop 0, ¬ nameChar c := by
    obtain ⟨c, hc, hcend⟩ := hend
    exact ⟨c, List.mem_of_mem_drop hc, hcend⟩
  have hlong : 8 < bytes.length := by
    obtain ⟨c, hc, _⟩ := hend
    by_contra hshort
    rw [List.drop_eq_nil_of_le (Nat.le_of_not_lt hshort)] at hc
    cases hc
  unfold nameWritten at hlen ⊢
  have hbound : (bytes.takeWhile nameChar).length < size := by
    split at hlen
    · rw [List.length_append] at hlen
      omega
    · exact hlen
  have hname := fat16ToStringAt_behind [] 0 hstored hitem hout hapart hend₀
    (by rw [List.drop_zero, List.length_nil]; omega)
  rw [store_nil, List.length_nil, Nat.add_zero, Nat.add_zero, List.drop_zero, List.nil_append] at hname
  have hext : store (fill mem out size 0) out (bytes.takeWhile nameChar) (item + 8) = (bytes.drop 8).headD 0 := by
    rw [sameOutside_store _ out _ _ (by rw [Extent.holds_mk]; omega),
      sameOutside_fill mem out size 0 _ (by rw [Extent.holds_mk]; omega), hstored 8 hlong, List.headD_eq_head?_getD,
      List.head?_drop, List.getD_eq_getElem?_getD]
  unfold fat16GetFullRelativeFilenameAt
  simp only [hname, Option.bind_eq_bind, Option.bind_some, hext, ← nameChar_iff]
  generalize bytes.takeWhile nameChar = xs at *
  split
  · rename_i hchar
    rw [if_pos hchar, List.length_append, List.length_cons] at hlen
    have hdot : Function.update (store (fill mem out size 0) out xs) (out + xs.length) 0x2E =
        store (fill mem out size 0) out (xs ++ [0x2E]) := by rw [← store_singleton, store_append]
    have hlength : (xs ++ [0x2E]).length = xs.length + 1 := by rw [List.length_append, List.length_singleton]
    rw [hdot, u32_of_lt (by omega), Nat.add_assoc, ← hlength,
      fat16ToStringAt_behind (xs ++ [0x2E]) 8 hstored hitem hout hapart hend (by omega), List.append_assoc]
    rfl
  · rfl

/-! ### The name in the fields -/

/-- A field without the padding behind it, zeros or blanks. -/
def fieldText (field : List UInt8) : List UInt8 := field.rdropWhile fun c => !nameChar c

/-- The name in a record's two fields. -/
def fieldsName (filename ext : List UInt8) : List UInt8 :=
  if fieldText ext = [] then fieldText filename else fieldText filename ++ 0x2E :: fieldText ext

/-- No padding in front of a character. -/
def Unbroken (field : List UInt8) : Prop := ∀ c ∈ fieldText field, nameChar c

/-- The field has padding. -/
def Padded (field : List UInt8) : Prop := ∃ c ∈ field, ¬ nameChar c

instance (field : List UInt8) : Decidable (Unbroken field) := List.decidableBAll (fun c => nameChar c) (fieldText field)

instance (field : List UInt8) : Decidable (Padded field) := List.decidableBEx (fun c => ¬ nameChar c) field

variable {filename ext field rest : List UInt8}

theorem fieldText_padding (field : List UInt8) : ∃ padding, field = fieldText field ++ padding ∧
    ∀ c ∈ padding, ¬ nameChar c := by
  refine ⟨field.rtakeWhile fun c => !nameChar c, List.rdropWhile_append_rtakeWhile.symm, fun c hc hchar => ?_⟩
  have hpadding := List.mem_rtakeWhile_imp hc
  rw [hchar] at hpadding
  exact absurd hpadding (by decide)

/-- The last character of a field's text is no padding. -/
theorem fieldText_last (h : fieldText field ≠ []) : nameChar ((fieldText field).getLast h) := by
  have hlast := List.rdropWhile_last_not (fun c => !nameChar c) field h
  exact not_not.mp fun hno => hlast (by rw [Bool.not_eq_true'] ; exact Bool.not_eq_true _ ▸ hno)

theorem fieldText_full (h : ¬ Padded field) : fieldText field = field := by
  obtain ⟨padding, heq, hpadding⟩ := fieldText_padding field
  cases padding with
  | nil => rw [List.append_nil] at heq; exact heq.symm
  | cons c rest => exact absurd ⟨c, by rw [heq]; simp, hpadding c (List.mem_cons_self ..)⟩ h

/-- The copy of a field with padding ends in it. -/
theorem takeWhile_padded (h : Unbroken field) (hpadded : Padded field) (rest : List UInt8) :
    (field ++ rest).takeWhile nameChar = fieldText field := by
  obtain ⟨padding, heq, hpadding⟩ := fieldText_padding field
  cases padding with
  | nil =>
    obtain ⟨c, hc, hend⟩ := hpadded
    rw [heq, List.append_nil] at hc
    exact absurd (h c hc) hend
  | cons c padding =>
    have hsplit : field ++ rest = fieldText field ++ c :: (padding ++ rest) := by
      conv_lhs => rw [heq]
      simp
    rw [hsplit, List.takeWhile_append_of_pos h, List.takeWhile_cons_of_neg (hpadding c (List.mem_cons_self ..)),
      List.append_nil]

/-- The copy of a field without runs on. -/
theorem takeWhile_full (h : ¬ Padded field) (rest : List UInt8) :
    (field ++ rest).takeWhile nameChar = field ++ rest.takeWhile nameChar := by
  refine List.takeWhile_append_of_pos fun c hc => ?_
  by_contra hend
  exact h ⟨c, hc, hend⟩

/-- The extension is looked at just when it has text. -/
theorem nameChar_head (hne : field ≠ []) (h : Unbroken field) : nameChar (field.headD 0) ↔ fieldText field ≠ [] := by
  obtain ⟨padding, heq, hpadding⟩ := fieldText_padding field
  cases htext : fieldText field with
  | nil =>
    rw [htext, List.nil_append] at heq
    cases hfield : field with
    | nil => exact absurd hfield hne
    | cons c rest =>
      refine iff_of_false (fun hchar => ?_) fun hno => hno rfl
      exact hpadding c (by rw [← heq, hfield]; exact List.mem_cons_self ..) hchar
  | cons c text =>
    refine iff_of_true ?_ fun hno => nomatch hno
    rw [heq, htext]
    exact h c (by rw [htext]; exact List.mem_cons_self ..)

theorem nameWritten_append (hfilename : filename.length = 8) (hext : ext.length = 3) (rest : List UInt8) :
    nameWritten (filename ++ (ext ++ rest)) =
      if nameChar (ext.headD 0) then
        (filename ++ (ext ++ rest)).takeWhile nameChar ++ 0x2E :: (ext ++ rest).takeWhile nameChar
      else (filename ++ (ext ++ rest)).takeWhile nameChar := by
  unfold nameWritten
  rw [List.drop_left' hfilename]
  cases ext with
  | nil => cases hext
  | cons c ext => rfl

/-- **The fields' name is written** whatever is behind the record, if each field is unbroken and
there is no extension, or both have padding. -/
theorem nameWritten_fields (hfilename : filename.length = 8) (hext : ext.length = 3) (hunbroken : Unbroken filename)
    (hunbroken' : Unbroken ext) (hpadded : fieldText ext = [] ∨ (Padded filename ∧ Padded ext)) (rest : List UInt8) :
    nameWritten (filename ++ (ext ++ rest)) = fieldsName filename ext := by
  have hne : ext ≠ [] := fun h => by rw [h] at hext; cases hext
  have hhead := nameChar_head hne hunbroken'
  rw [nameWritten_append hfilename hext]
  unfold fieldsName
  by_cases hblank : fieldText ext = []
  · rw [if_pos hblank, if_neg fun hchar => hhead.mp hchar hblank]
    by_cases hfull : Padded filename
    · exact takeWhile_padded hunbroken hfull _
    · -- the copy of a full name ends at the blank extension
      have hstop : (ext ++ rest).takeWhile nameChar = [] := by
        cases ext with
        | nil => exact absurd rfl hne
        | cons c ext => exact List.takeWhile_cons_of_neg fun hchar => hhead.mp hchar hblank
      rw [takeWhile_full hfull, hstop, List.append_nil, fieldText_full hfull]
  · obtain ⟨hname, hsuffix⟩ := hpadded.resolve_left hblank
    rw [if_neg hblank, if_pos (hhead.mpr hblank), takeWhile_padded hunbroken hname, takeWhile_padded hunbroken' hsuffix]

theorem nameChar_of_written {bytes : List UInt8} {c : UInt8} (h : c ∈ nameWritten bytes) : nameChar c := by
  unfold nameWritten at h
  split at h
  · rcases List.mem_append.mp h with hname | hdot
    · exact List.mem_takeWhile_imp hname
    · rcases List.mem_cons.mp hdot with rfl | hsuffix
      · decide
      · exact List.mem_takeWhile_imp hsuffix
  · exact List.mem_takeWhile_imp h

/-- And in no other case, with a blank or with a character behind the record. -/
theorem fields_of_nameWritten (hfilename : filename.length = 8) (hext : ext.length = 3)
    (h : ∀ rest, rest = [0x00] ∨ rest = [0x41, 0x00] → nameWritten
    (filename ++ (ext ++ rest)) = fieldsName filename ext) :
    Unbroken filename ∧ Unbroken ext ∧ (fieldText ext = [] ∨ (Padded filename ∧ Padded ext)) := by
  have hchars : ∀ c ∈ fieldsName filename ext, nameChar c := fun c hc =>
    nameChar_of_written (by rw [h [0x00] (.inl rfl)]; exact hc)
  unfold fieldsName at hchars
  have hunbroken : Unbroken filename := by
    refine fun c hc => hchars c ?_
    split
    · exact hc
    · exact List.mem_append_left _ hc
  have hunbroken' : Unbroken ext := by
    refine fun c hc => hchars c ?_
    rw [if_neg (List.ne_nil_of_mem hc)]
    exact List.mem_append_right _ (List.mem_cons_of_mem _ hc)
  refine ⟨hunbroken, hunbroken', ?_⟩
  by_cases hblank : fieldText ext = []
  · exact .inl hblank
  -- the lengths alone tell the copies that run on
  have hhead := (nameChar_head (fun hno => by rw [hno] at hext; cases hext) hunbroken').mpr hblank
  have hlength : ∀ rest, rest = [0x00] ∨ rest = [0x41, 0x00] →
      ((filename ++ (ext ++ rest)).takeWhile nameChar).length + ((ext ++ rest).takeWhile nameChar).length =
        (fieldText filename).length + (fieldText ext).length := by
    intro rest hrest
    have heq := congrArg List.length (h rest hrest)
    rw [nameWritten_append hfilename hext, if_pos hhead, fieldsName, if_neg hblank] at heq
    simp only [List.length_append, List.length_cons] at heq ⊢
    omega
  have hone := hlength [0x00] (.inl rfl)
  have htwo := hlength [0x41, 0x00] (.inr rfl)
  have hstop : ([0x00] : List UInt8).takeWhile nameChar = [] := by decide
  have hruns : ([0x41, 0x00] : List UInt8).takeWhile nameChar = [0x41] := by decide
  have hpadded : Padded ext := by
    by_contra hfull
    rw [takeWhile_full hfull, fieldText_full hfull] at hone htwo
    by_cases hname : Padded filename
    · rw [takeWhile_padded hunbroken hname, hruns, List.length_append, List.length_singleton] at htwo
      omega
    · rw [takeWhile_full hname, fieldText_full hname, takeWhile_full hfull, hstop, List.append_nil,
        List.length_append] at hone
      omega
  have hname : Padded filename := by
    by_contra hfull
    rw [takeWhile_full hfull, fieldText_full hfull, takeWhile_padded hunbroken' hpadded, List.length_append] at hone
    exact hblank (List.eq_nil_of_length_eq_zero (by omega))
  exact .inr ⟨hname, hpadded⟩

/-! ### When the driver writes it -/

/-- **The name written**: for every record with these fields, wherever it is and whatever is around
it, and every buffer for a name of 12 characters and its zero, the fields' name is in the buffer
with a zero behind it, and nothing outside of the buffer has changed. -/
def FieldsWritten (filename ext : List UInt8) : Prop :=
  ∀ (mem : Memory) (item out size : Nat), Stored mem item (filename ++ ext) → 13 ≤ size →
    item + sizeofFatDirectoryItem ≤ 2 ^ 32 → out + size ≤ 2 ^ 32 →
    (item + sizeofFatDirectoryItem ≤ out ∨ out + size ≤ item) →
    ∃ mem', fat16GetFullRelativeFilenameAt mem item out size = some mem' ∧
      Stored mem' out (fieldsName filename ext ++ [0x00]) ∧ SameOutside ⟨out, size⟩ mem mem'

/-- The buffer has the characters written and zeros behind them. -/
theorem stored_fill {mem : Memory} {out size : Nat} {text : List UInt8} (h : text.length < size) :
    Stored (store (fill mem out size 0) out text) out (text ++ [0x00]) := by
  refine stored_append.mpr ⟨stored_store _ _ _, fun i hi => ?_⟩
  obtain rfl : i = 0 := Nat.lt_one_iff.mp hi
  rw [sameOutside_store _ out text _ (by rw [Extent.holds_mk]; omega)]
  exact if_pos (by omega)

theorem fieldText_length_le (field : List UInt8) : (fieldText field).length ≤ field.length := by
  obtain ⟨padding, heq, _⟩ := fieldText_padding field
  calc (fieldText field).length ≤ (fieldText field ++ padding).length := by
        rw [List.length_append]
        exact Nat.le_add_right ..
    _ = field.length := by rw [← heq]

theorem fieldsName_length_le (hfilename : filename.length = 8) (hext : ext.length = 3) :
    (fieldsName filename ext).length ≤ 12 := by
  have h := fieldText_length_le filename
  have h' := fieldText_length_le ext
  unfold fieldsName
  split
  · omega
  · rw [List.length_append, List.length_cons]
    omega

/-- Two texts in one buffer of zeros, the second with no zero at its end. -/
theorem text_eq_of_stored {mem : Memory} {out : Nat} {text text' : List UInt8} (h : Stored mem out (text ++ [0x00]))
    (h' : Stored mem out (text' ++ [0x00])) (hchars : ∀ c ∈ text, c ≠ 0)
    (hlast : ∀ hne : text' ≠ [], text'.getLast hne ≠ 0)
    (hzeros : ∀ i, text.length ≤ i → i < text'.length → mem (out + i) = 0) : text = text' := by
  have hchar : ∀ i (hi : i < text'.length), mem (out + i) = text'[i] := by
    intro i hi
    rw [h' i (by rw [List.length_append]; omega), List.getD_append _ _ _ _ hi, List.getD_eq_getElem _ _ hi]
  have hle : text'.length ≤ text.length := by
    by_contra hlong
    have hne : text' ≠ [] := fun hno => by rw [hno] at hlong; exact hlong (Nat.zero_le _)
    refine hlast hne ?_
    rw [List.getLast_eq_getElem, ← hchar _ (by omega)]
    exact hzeros _ (by omega) (by omega)
  refine stored_unique h h' hchars fun c hc => ?_
  obtain ⟨i, hi, rfl⟩ := List.getElem_of_mem hc
  have hi' : i < text.length := Nat.lt_of_lt_of_le hi hle
  rw [← hchar i hi, h i (by rw [List.length_append]; omega), List.getD_append _ _ _ _ hi', List.getD_eq_getElem _ _ hi']
  exact hchars _ (List.getElem_mem hi')

theorem fieldsName_last (hne : fieldsName filename ext ≠ []) : nameChar ((fieldsName filename ext).getLast hne) := by
  unfold fieldsName at hne ⊢
  by_cases hblank : fieldText ext = []
  · simp only [if_pos hblank] at hne ⊢
    exact fieldText_last hne
  · simp only [if_neg hblank, List.getLast_append_of_ne_nil _ (List.cons_ne_nil _ _), List.getLast_cons hblank]
    exact fieldText_last hblank

theorem nameWritten_length_le (bytes : List UInt8) : (nameWritten bytes).length ≤ bytes.length + 1 + bytes.length := by
  have hname := (List.takeWhile_sublist (p := nameChar) (l := bytes)).length_le
  have hsuffix := (List.takeWhile_sublist (p := nameChar) (l := bytes.drop 8)).length_le
  rw [List.length_drop] at hsuffix
  unfold nameWritten
  split
  · rw [List.length_append, List.length_cons]
    omega
  · omega

/-- What is written in memory is the fields' name in no other case. -/
theorem FieldsWritten.fields (h : FieldsWritten filename ext) (hfilename : filename.length = 8)
    (hext : ext.length = 3) :
    Unbroken filename ∧ Unbroken ext ∧ (fieldText ext = [] ∨ (Padded filename ∧ Padded ext)) := by
  refine fields_of_nameWritten hfilename hext fun rest hrest => ?_
  -- a record followed by these bytes, in memory that is zero elsewhere
  have hlength : (filename ++ (ext ++ rest)).length ≤ 13 := by
    simp only [List.length_append]
    rcases hrest with rfl | rfl
    · simp only [List.length_cons, List.length_nil]
      omega
    · simp only [List.length_cons, List.length_nil]
      omega
  have hstored := stored_store (fun _ => 0) 1000 (filename ++ (ext ++ rest))
  have hfields : Stored (store (fun _ => 0) 1000 (filename ++ (ext ++ rest))) 1000 (filename ++ ext) := by
    rw [← List.append_assoc] at hstored ⊢
    exact (stored_append.mp hstored).1
  have hend : ∃ c ∈ (filename ++ (ext ++ rest)).drop 8, ¬ nameChar c := by
    rw [List.drop_left' hfilename]
    refine ⟨0x00, List.mem_append_right _ ?_, by decide⟩
    rcases hrest with rfl | rfl
    · exact List.mem_cons_self ..
    · exact List.mem_cons_of_mem _ (List.mem_cons_self ..)
  have hshort := nameWritten_length_le (filename ++ (ext ++ rest))
  have hname := fieldsName_length_le hfilename hext
  obtain ⟨mem', hrun, hwritten, _⟩ := h _ 1000 2000 108 hfields (by decide) (by decide) (by decide) (by decide)
  rw [fat16GetFullRelativeFilenameAt_eq hstored hend (by omega) (by omega) (by decide) (by omega)] at hrun
  cases hrun
  refine text_eq_of_stored (stored_fill (by omega)) hwritten (fun c hc => (nameChar_iff.mp (nameChar_of_written hc)).1)
    (fun hne => (nameChar_iff.mp (fieldsName_last hne)).1) fun i hlow hhigh => ?_
  rw [sameOutside_store _ 2000 _ _ (by rw [Extent.holds_mk]; omega)]
  exact if_pos (by omega)

/-- **The fields' name is written exactly when** there is no padding inside a field, and the
extension is blank or both fields have padding behind them. -/
theorem fieldsWritten_iff (hfilename : filename.length = 8) (hext : ext.length = 3) :
    FieldsWritten filename ext ↔
      Unbroken filename ∧ Unbroken ext ∧ (fieldText ext = [] ∨ (Padded filename ∧ Padded ext)) := by
  constructor
  · exact fun h => h.fields hfilename hext
  · intro ⟨hunbroken, hunbroken', hpadded⟩ mem item out size hstored hsize hitem hout hapart
    have hwritten := nameWritten_fields hfilename hext hunbroken hunbroken' hpadded []
    rw [List.append_nil] at hwritten
    have hend : Padded ext := by
      rcases hpadded with hblank | ⟨_, hpadded⟩
      · by_contra hfull
        rw [fieldText_full hfull] at hblank
        rw [hblank] at hext
        cases hext
      · exact hpadded
    have hname := fieldsName_length_le hfilename hext
    have hlength : (filename ++ ext).length = 11 := by rw [List.length_append, hfilename, hext]
    simp only [sizeofFatDirectoryItem] at hitem hapart
    refine ⟨_, fat16GetFullRelativeFilenameAt_eq hstored ?_ ?_ ?_ hout ?_, ?_, ?_⟩
    · rw [List.drop_left' hfilename]
      exact hend
    · rw [hwritten]
      omega
    · omega
    · omega
    · rw [hwritten]
      exact stored_fill (by omega)
    · rw [hwritten]
      exact (sameOutside_fill mem out size 0).trans ((sameOutside_store _ out _).mono fun b hb => by
        rw [Extent.holds_mk] at hb ⊢
        omega)

/-- `README.C`, both fields with blanks behind them. -/
theorem fieldsWritten_readme : FieldsWritten [0x52, 0x45, 0x41, 0x44, 0x4D, 0x45, 0x20, 0x20] [0x43, 0x20, 0x20] :=
  (fieldsWritten_iff rfl rfl).mpr (by decide)

/-- **A name of 8 characters runs on**: `PROGRAMS` with the extension `C` comes out as `PROGRAMSC.C`. -/
theorem fieldsWritten_not : ¬ ∀ filename ext : List UInt8, filename.length = 8 → ext.length = 3 →
    FieldsWritten filename ext := by
  intro h
  have hfields := (h [0x50, 0x52, 0x4F, 0x47, 0x52, 0x41, 0x4D, 0x53] [0x43, 0x20, 0x20] rfl rfl).fields rfl rfl
  exact absurd hfields (by decide)

end BasicOS
