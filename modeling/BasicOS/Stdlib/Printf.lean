import BasicOS.CString
import BasicOS.Stdlib.Itoa

/-! `printf` of the user library.

The format is scanned by a pointer that moves on by one in the loop and by one more in front of a
conversion. With arguments that match, what is emitted is the format with its conversions
replaced (`Expands`). A `%` that is the last character has no conversion behind it: the zero
is taken for one, is put out, and the scan goes on behind the string. Without such a `%` it
ends at the zero (`printf_expands_iff`). -/
namespace BasicOS
open Lib Program

/-- `'%'`. -/
abbrev percent : UInt8 := 37

/-- The memory of a program, and the address of the buffer of `itoa` in it. A string that is printed
may be in that buffer. -/
structure UserMemory where
  mem : Memory
  itoaText : Nat

/-- The memory with what the buffer has now. -/
def UserMemory.with (u : UserMemory) (text : ItoaText) : Memory := fun a =>
  if h : u.itoaText ≤ a ∧ a < u.itoaText + 12 then text[a - u.itoaText] else u.mem a

/-- The buffer, what has been handed to `putchar` and `print`, and the addresses of the format
read, the last one first. -/
structure Stdout where
  text : ItoaText
  emitted : List UInt8
  reads : List Nat

/-- The scanning pointer, and the arguments not yet taken. -/
structure PrintfLoop where
  p : Nat
  args : List Nat

def readFormat (u : UserMemory) (p : Nat) : Program Undefined Stdout UInt8 := fun s =>
  .ok (u.mem p, {s with reads := p :: s.reads})

def emit (chars : List UInt8) : Program Undefined Stdout Unit := modify fun s => {s with emitted := s.emitted ++ chars}

/-- `print` hands the string at a pointer to the kernel; none has more than `2 ^ 32` characters. -/
def printAt (u : UserMemory) (str : Nat) : Program Undefined Stdout Unit := do
  emit (stringAt (u.with (← get).text) str (2 ^ 32))

/-- `va_arg`. -/
def vaArg : List Nat → Program Undefined Stdout (Nat × List Nat)
  | [] => stop .noArgument
  | word :: args => return (word, args)

/-- The `switch`: the arguments left. -/
def convert (u : UserMemory) (ch : UInt8) (args : List Nat) : Program Undefined Stdout (List Nat) :=
  if ch = 105 then do
    let (ival, args) ← vaArg args
    let loc ← zoom Stdout.text (fun text s => {s with text := text}) (itoa (Int32.ofNat ival))
    printAt u (u.itoaText + loc.toNat)
    return args
  else if ch = 115 then do
    let (sval, args) ← vaArg args
    printAt u sval
    return args
  else do
    emit [ch]
    return args

def printfTurn (u : UserMemory) (l : PrintfLoop) : Program Undefined Stdout (Turn PrintfLoop Unit) := do
  let ch ← readFormat u l.p
  if ch = 0 then return .leave ()
  if ch ≠ percent then
    emit [ch]
    return .again ⟨l.p + 1, l.args⟩
  let ch ← readFormat u (l.p + 1)
  return .again ⟨l.p + 2, ← convert u ch l.args⟩

def printf (u : UserMemory) (turns format : Nat) (args : List Nat) : Program Undefined Stdout Int := do
  loop .diverges (printfTurn u) turns ⟨format, args⟩
  return 0

/-- The text of a format with matching arguments, of which some may be left over. A string is
the one at its pointer when its turn comes. A last `%` is a pair with nothing. -/
inductive Expands (u : UserMemory) : ItoaText → List UInt8 → List Nat → List UInt8 → Prop
  | done (text : ItoaText) (args : List Nat) : Expands u text [] args []
  | plain {text : ItoaText} {ch : UInt8} {format out : List UInt8} {args : List Nat} :
    ch ≠ percent → Expands u text format args out → Expands u text (ch :: format) args (ch :: out)
  | int {text text' : ItoaText} {loc : Int} {word : Nat} {format out : List UInt8} {args : List Nat} :
    itoa (Int32.ofNat word) text = .ok (loc, text') → Expands u text' format args out →
      Expands u text (percent :: 105 :: format) (word :: args) (decimal (Int32.ofNat word).toInt ++ out)
  | string {text : ItoaText} {format out chars : List UInt8} {args : List Nat} {word : Nat} :
    Stored (u.with text) word (chars ++ [0]) → (∀ c ∈ chars, c ≠ 0) → chars.length ≤ 2 ^ 32 →
      Expands u text format args out → Expands u text (percent :: 115 :: format) (word :: args) (chars ++ out)
  | other {text : ItoaText} {ch : UInt8} {format out : List UInt8} {args : List Nat} :
    ch ≠ 105 → ch ≠ 115 → Expands u text format args out → Expands u text (percent :: ch :: format) args (ch :: out)
  | lone (text : ItoaText) (args : List Nat) : Expands u text [percent] args [percent]

/-- Taken in pairs from the left, the format ends in a `%` without a character behind it. -/
def lonePercent : List UInt8 → Bool
  | [] => false
  | [ch] => ch = percent
  | ch :: next :: format => if ch = percent then lonePercent format else lonePercent (next :: format)

/-- `printf` ends, has read the format and its zero only, and has emitted the text. -/
def PrintsAll (u : UserMemory) (format length : Nat) (args : List Nat) (text : ItoaText) (out : List UInt8) : Prop :=
  ∃ turns t, printf u turns format args ⟨text, [], []⟩ = .ok (0, t) ∧ t.emitted = out ∧
    ∀ a ∈ t.reads, format ≤ a ∧ a ≤ format + length

variable {u : UserMemory} {s : Stdout} {l : PrintfLoop} {first last n : Nat} {format out total : List UInt8}

/-! ### The switch -/

theorem with_text (u : UserMemory) (text : ItoaText) {i : Nat} (hi : i < 12) :
    u.with text (u.itoaText + i) = text.toList.getD i 0 := by
  unfold UserMemory.with
  rw [dif_pos (by omega), List.getD_eq_getElem _ _ (by rw [Vector.length_toList]; exact hi), Vector.getElem_toList]
  congr 1
  omega

theorem printAt_eq {chars : List UInt8} {str : Nat} (h : Stored (u.with s.text) str (chars ++ [0]))
    (hne : ∀ c ∈ chars, c ≠ 0) (hlen : chars.length ≤ 2 ^ 32) :
    printAt u str s = .ok ((), {s with emitted := s.emitted ++ chars}) := by
  unfold printAt
  rw [bind_apply, get_apply]
  simp only
  rw [stringAt_of_stored h hne hlen]
  rfl

theorem convert_int {word : Nat} {loc : Int} {text' : ItoaText} (h : itoa (Int32.ofNat word) s.text = .ok (loc, text'))
    (args : List Nat) : convert u 105 (word :: args) s =
      .ok (args, {s with text := text', emitted := s.emitted ++ decimal (Int32.ofNat word).toInt}) := by
  obtain ⟨loc', text'', hrun, hge, hlt, hfrom⟩ := itoa_spec (Int32.ofNat word) s.text
  obtain ⟨rfl, rfl⟩ := Prod.mk.inj (Except.ok.inj (h.symm.trans hrun))
  have hlen := congrArg List.length hfrom
  rw [length_from, List.length_append, List.length_singleton] at hlen
  have hstored : Stored (u.with text') (u.itoaText + loc.toNat) (decimal (Int32.ofNat word).toInt ++ [0]) := by
    intro i hi
    rw [List.length_append, List.length_singleton] at hi
    rw [Nat.add_assoc, with_text u text' (by omega), ← hfrom, ItoaText.from, List.getD_eq_getElem?_getD,
      List.getD_eq_getElem?_getD, List.getElem?_drop]
  unfold convert
  rw [if_pos rfl]
  show (zoom Stdout.text (fun text s => {s with text := text}) (itoa (Int32.ofNat word)) >>= fun loc => do
    printAt u (u.itoaText + loc.toNat)
    return args) s = _
  rw [bind_apply, zoom_ok.mpr ⟨loc, text', h, rfl⟩]
  simp only
  rw [bind_apply, printAt_eq hstored (fun c hc => decimal_ne_zero hc) (by omega)]
  rfl

theorem convert_string {word : Nat} {chars : List UInt8} (h : Stored (u.with s.text) word (chars ++ [0]))
    (hne : ∀ c ∈ chars, c ≠ 0) (hlen : chars.length ≤ 2 ^ 32) (args : List Nat) :
    convert u 115 (word :: args) s = .ok (args, {s with emitted := s.emitted ++ chars}) := by
  unfold convert
  rw [if_neg (by decide), if_pos rfl]
  show (printAt u word >>= fun _ => return args) s = _
  rw [bind_apply, printAt_eq h hne hlen]
  rfl

theorem convert_other {ch : UInt8} (hi : ch ≠ 105) (hs : ch ≠ 115) (args : List Nat) :
    convert u ch args s = .ok (args, {s with emitted := s.emitted ++ [ch]}) := by
  unfold convert
  rw [if_neg hi, if_neg hs]
  rfl

/-- The switch reads nothing of the format. -/
theorem convert_reads (ch : UInt8) (args : List Nat) : Ensures (convert u ch args) (fun _ t => t.reads = s.reads) s := by
  by_cases hi : ch = 105
  · subst hi
    cases args with
    | nil => trivial
    | cons word args =>
      obtain ⟨loc, text', hrun, _⟩ := itoa_spec (Int32.ofNat word) s.text
      exact (wp_ok (convert_int hrun args)).mpr rfl
  by_cases hs : ch = 115
  · subst hs
    cases args with
    | nil => trivial
    | cons word args => exact rfl
  · exact (wp_ok (convert_other hi hs args)).mpr rfl

/-! ### One turn -/

theorem printfTurn_end (h : u.mem l.p = 0) :
    printfTurn u l s = .ok (.leave (), {s with reads := l.p :: s.reads}) := by
  show (if u.mem l.p = 0 then _ else _ : Program Undefined Stdout (Turn PrintfLoop Unit)) _ = _
  rw [if_pos h]
  rfl

theorem printfTurn_plain (hne : u.mem l.p ≠ 0) (h : u.mem l.p ≠ percent) : printfTurn u l s =
    .ok (.again ⟨l.p + 1, l.args⟩, {s with reads := l.p :: s.reads, emitted := s.emitted ++ [u.mem l.p]}) := by
  show (if u.mem l.p = 0 then _ else _ : Program Undefined Stdout (Turn PrintfLoop Unit)) _ = _
  rw [if_neg hne, if_pos h]
  rfl

theorem printfTurn_pair (h : u.mem l.p = percent) : printfTurn u l s =
    (convert u (u.mem (l.p + 1)) l.args >>= fun args => return .again ⟨l.p + 2, args⟩)
      {s with reads := (l.p + 1) :: l.p :: s.reads} := by
  show (if u.mem l.p = 0 then _ else _ : Program Undefined Stdout (Turn PrintfLoop Unit)) _ = _
  rw [h, if_neg (by decide), if_neg (not_not.mpr rfl)]
  rfl

/-! ### The loop -/

theorem lonePercent_plain {ch : UInt8} (h : ch ≠ percent) (format : List UInt8) :
    lonePercent (ch :: format) = lonePercent format := by
  cases format with
  | nil => exact decide_eq_false h
  | cons next format => exact if_neg h

theorem lonePercent_pair (ch : UInt8) (format : List UInt8) :
    lonePercent (percent :: ch :: format) = lonePercent format := if_pos rfl

/-- What is left of the format is at the pointer and expands to what is left of the text. -/
structure PrintfLoop.Holds (u : UserMemory) (first last : Nat) (total : List UInt8) (n : Nat) (l : PrintfLoop)
    (s : Stdout) : Prop where
  rest : ∃ format out, format.length = n ∧ Stored u.mem l.p (format ++ [0]) ∧ (∀ c ∈ format, c ≠ 0) ∧
    lonePercent format = false ∧ Expands u s.text format l.args out ∧ s.emitted ++ out = total
  place : first ≤ l.p ∧ l.p + n = last
  reads : ∀ a ∈ s.reads, first ≤ a ∧ a ≤ last

/-- A turn with a conversion that has been made. -/
theorem printfTurn_converted {ch : UInt8} {args' : List Nat} {t : Stdout}
    (hstored : Stored u.mem l.p (percent :: ch :: format ++ [0])) (hne : ∀ c ∈ percent :: ch :: format, c ≠ 0)
    (hlone : lonePercent (percent :: ch :: format) = false) (hfirst : first ≤ l.p)
    (hlast : l.p + (percent :: ch :: format).length = last) (hreads : ∀ a ∈ s.reads, first ≤ a ∧ a ≤ last)
    (hrun : convert u ch l.args {s with reads := (l.p + 1) :: l.p :: s.reads} = .ok (args', t))
    (htreads : t.reads = (l.p + 1) :: l.p :: s.reads) (hexpands : Expands u t.text format args' out)
    (htotal : t.emitted ++ out = total) : wp (printfTurn u l)
      (Turn.To (fun _ t => t.emitted = total ∧ ∀ a ∈ t.reads, first ≤ a ∧ a ≤ last) fun l' t =>
        ∃ k, k < (percent :: ch :: format).length ∧ l'.Holds u first last total k t) (fun _ => False) s := by
  simp only [List.cons_append, stored_cons] at hstored
  obtain ⟨hp, hch, hrest⟩ := hstored
  rw [lonePercent_pair] at hlone
  simp only [List.length_cons] at hlast
  have hne' : ∀ c ∈ format, c ≠ 0 := fun c hc => hne c (List.mem_cons_of_mem _ (List.mem_cons_of_mem _ hc))
  have hturn : printfTurn u l s = .ok (.again ⟨l.p + 2, args'⟩, t) := by
    rw [printfTurn_pair hp, bind_apply, hch, hrun]
    rfl
  refine (wp_ok hturn).mpr ⟨format.length, ?_, ⟨format, out, rfl, hrest, hne', hlone, hexpands, htotal⟩, ⟨?_, ?_⟩, ?_⟩
  · simp only [List.length_cons]
    omega
  · show first ≤ l.p + 2
    omega
  · show l.p + 2 + format.length = last
    omega
  · rw [htreads]
    simp only [List.forall_mem_cons]
    exact ⟨by omega, by omega, hreads⟩

theorem printfTurn_holds (h : l.Holds u first last total n s) : wp (printfTurn u l)
    (Turn.To (fun _ t => t.emitted = total ∧ ∀ a ∈ t.reads, first ≤ a ∧ a ≤ last) fun l' t =>
      ∃ k, k < n ∧ l'.Holds u first last total k t) (fun _ => False) s := by
  obtain ⟨format, out, hlen, hstored, hne, hlone, hexpands, htotal⟩ := h.rest
  obtain ⟨hfirst, hlast⟩ := h.place
  have hreads := h.reads
  subst hlen
  generalize hargs : l.args = args at hexpands
  cases hexpands with
  | done text args =>
    refine (wp_ok (printfTurn_end (stored_cons.mp hstored).1)).mpr ⟨?_, ?_⟩
    · rw [← htotal, List.append_nil]
    · simp only [List.forall_mem_cons]
      exact ⟨by omega, hreads⟩
  | @plain _ ch format out _ hch hrest =>
    rw [List.cons_append, stored_cons] at hstored
    rw [lonePercent_plain hch] at hlone
    rw [List.length_cons] at hlast
    have hzero : u.mem l.p ≠ 0 := hstored.1 ▸ hne ch (List.mem_cons_self ..)
    refine (wp_ok (printfTurn_plain hzero (hstored.1 ▸ hch))).mpr ⟨format.length, Nat.lt_succ_self _,
      ⟨format, out, rfl, hstored.2, fun c hc => hne c (List.mem_cons_of_mem _ hc), hlone, hargs ▸ hrest, ?_⟩,
      ⟨?_, ?_⟩, ?_⟩
    · rw [← htotal, hstored.1, List.append_assoc]
      rfl
    · show first ≤ l.p + 1
      omega
    · show l.p + 1 + format.length = last
      omega
    · simp only [List.forall_mem_cons]
      exact ⟨by omega, hreads⟩
  | @int _ text' loc word format out args hrun hrest =>
    have hconvert := convert_int (u := u) (s := {s with reads := (l.p + 1) :: l.p :: s.reads}) hrun args
    rw [← hargs] at hconvert
    refine printfTurn_converted hstored hne hlone hfirst hlast hreads hconvert rfl hrest ?_
    rw [← htotal, List.append_assoc]
  | @string _ format out chars args word hword hchars hsize hrest =>
    have hconvert := convert_string (s := {s with reads := (l.p + 1) :: l.p :: s.reads}) hword hchars hsize args
    rw [← hargs] at hconvert
    refine printfTurn_converted hstored hne hlone hfirst hlast hreads hconvert rfl hrest ?_
    rw [← htotal, List.append_assoc]
  | other hi hs hrest =>
    refine printfTurn_converted hstored hne hlone hfirst hlast hreads (convert_other hi hs _) rfl (hargs ▸ hrest) ?_
    rw [← htotal, List.append_assoc]
    rfl
  | lone text args => cases hlone

theorem printf_of_pairs {format' : Nat} {text : ItoaText} {args : List Nat}
    (hstored : Stored u.mem format' (format ++ [0])) (hne : ∀ c ∈ format, c ≠ 0)
    (hmatch : Expands u text format args out) (hlone : lonePercent format = false) :
    PrintsAll u format' format.length args text out := by
  have hstart : PrintfLoop.Holds u format' (format' + format.length) out format.length ⟨format', args⟩ ⟨text, [], []⟩ :=
    ⟨⟨format, out, rfl, hstored, hne, hlone, hmatch, rfl⟩, ⟨Nat.le_refl _, rfl⟩, fun a ha => absurd ha List.not_mem_nil⟩
  have hloop : wp (loop .diverges (printfTurn u) (format.length + 1) ⟨format', args⟩)
      (fun _ t => t.emitted = out ∧ ∀ a ∈ t.reads, format' ≤ a ∧ a ≤ format' + format.length) (fun _ => False)
      ⟨text, [], []⟩ :=
    loop_wp (I := fun n l s => l.Holds u format' (format' + format.length) out n s) (fun _ _ _ => printfTurn_holds)
      hstart (Nat.lt_succ_self _)
  obtain ⟨_, t, hrun, hout, hreads⟩ := hloop.returns
  refine ⟨format.length + 1, t, ?_, hout, hreads⟩
  unfold printf
  rw [bind_apply, hrun]
  rfl

/-! ### A last `%` -/

/-- A turn reads at the pointer, and forgets nothing. -/
theorem printfTurn_reads (l : PrintfLoop) (s : Stdout) :
    Ensures (printfTurn u l) (fun _ t => l.p ∈ t.reads ∧ ∀ a ∈ s.reads, a ∈ t.reads) s := by
  by_cases hzero : u.mem l.p = 0
  · exact (wp_ok (printfTurn_end hzero)).mpr ⟨List.mem_cons_self .., fun a ha => List.mem_cons_of_mem _ ha⟩
  by_cases hpercent : u.mem l.p = percent
  · unfold Ensures wp
    rw [printfTurn_pair hpercent]
    refine Ensures.mono (wp.bind (convert_reads _ _) fun args t ht => ?_) fun _ _ => id
    show l.p ∈ t.reads ∧ ∀ a ∈ s.reads, a ∈ t.reads
    rw [ht]
    exact ⟨List.mem_cons_of_mem _ (List.mem_cons_self ..), fun a ha => List.mem_cons_of_mem _ (List.mem_cons_of_mem _ ha)⟩
  · exact (wp_ok (printfTurn_plain hzero hpercent)).mpr
      ⟨List.mem_cons_self .., fun a ha => List.mem_cons_of_mem _ ha⟩

/-- The scan has passed the zero, or will: what is left ends in a `%`, or the pointer is behind the
zero. -/
inductive PrintfLoop.Passes (u : UserMemory) (last : Nat) (l : PrintfLoop) (s : Stdout) : Prop
  | read {a : Nat} : a ∈ s.reads → last < a → Passes u last l s
  | behind : l.p = last + 1 → Passes u last l s
  | lone {format : List UInt8} : lonePercent format = true → Stored u.mem l.p (format ++ [0]) → (∀ c ∈ format, c ≠ 0) →
    l.p + format.length = last → Passes u last l s

theorem printfTurn_passes (h : l.Passes u last s) : Ensures (printfTurn u l)
    (Turn.To (fun _ t => ∃ a ∈ t.reads, last < a) fun l' t => l'.Passes u last t) s := by
  have hbehind : ∀ {a : Nat} {end' : Turn PrintfLoop Unit} {t : Stdout}, a ∈ t.reads → last < a →
      Turn.To (fun _ t => ∃ a ∈ t.reads, last < a) (fun l' t => PrintfLoop.Passes u last l' t) end' t := by
    intro a end' t ha hlast
    cases end' with
    | leave _ => exact ⟨a, ha, hlast⟩
    | again l' => exact .read ha hlast
  cases h with
  | read ha hlast => exact (printfTurn_reads l s).mono fun _ t ht => hbehind (ht.2 _ ha) hlast
  | behind hp => exact (printfTurn_reads l s).mono fun _ t ht => hbehind ht.1 (by omega)
  | @lone format hlone hstored hne hlast =>
    match format with
    | [] => cases hlone
    | [ch] =>
      obtain rfl : ch = percent := of_decide_eq_true hlone
      simp only [List.cons_append, List.nil_append, stored_cons] at hstored
      obtain ⟨hp, hzero, _⟩ := hstored
      unfold Ensures wp
      rw [printfTurn_pair hp, hzero, bind_apply, convert_other (by decide) (by decide)]
      exact .behind (by show l.p + 2 = last + 1; rw [List.length_singleton] at hlast; omega)
    | ch :: next :: rest =>
      simp only [List.cons_append, stored_cons] at hstored
      obtain ⟨hp, hnext, hrest⟩ := hstored
      simp only [List.length_cons] at hlast
      by_cases hpercent : ch = percent
      · rw [hpercent, lonePercent_pair] at hlone
        have hne' : ∀ c ∈ rest, c ≠ 0 := fun c hc => hne c (List.mem_cons_of_mem _ (List.mem_cons_of_mem _ hc))
        unfold Ensures wp
        rw [printfTurn_pair (hp.trans hpercent)]
        refine wp.bind (convert_reads _ _) fun args t _ => ?_
        exact .lone hlone hrest hne' (by show l.p + 2 + rest.length = last; omega)
      · rw [lonePercent_plain hpercent] at hlone
        have hzero : u.mem l.p ≠ 0 := hp ▸ hne ch (List.mem_cons_self ..)
        refine (wp_ok (printfTurn_plain hzero (hp ▸ hpercent))).mpr (.lone hlone ?_ ?_ ?_)
        · exact stored_cons.mpr ⟨hnext, hrest⟩
        · exact fun c hc => hne c (List.mem_cons_of_mem _ hc)
        · show l.p + 1 + (next :: rest).length = last
          rw [List.length_cons]
          omega

/-- A format that ends in a lone `%` is read past its zero, if the call returns at all. -/
theorem not_prints_of_lone {format' : Nat} {text : ItoaText} {args : List Nat}
    (hstored : Stored u.mem format' (format ++ [0])) (hne : ∀ c ∈ format, c ≠ 0) (hlone : lonePercent format = true) :
    ¬ PrintsAll u format' format.length args text out := by
  intro h
  obtain ⟨turns, t, hrun, _, hreads⟩ := h
  have hstart : PrintfLoop.Passes u (format' + format.length) ⟨format', args⟩ ⟨text, [], []⟩ :=
    .lone hlone hstored hne rfl
  unfold printf at hrun
  obtain ⟨_, t', hleft, hend⟩ := bind_ok.mp hrun
  cases hend
  have hloop : Ensures (loop Undefined.diverges (printfTurn u) turns ⟨format', args⟩) _ ⟨text, [], []⟩ :=
    loop_ensures (fun _ _ => printfTurn_passes) hstart turns
  obtain ⟨a, ha, hlast⟩ := hloop.returned hleft
  exact absurd (hreads a ha).2 (by omega)

/-- **When `printf` prints its format.** For every format string and arguments that match it,
`printf` ends at the zero of the format and has emitted the text with the conversions replaced
exactly where the format does not end in a `%` that has no character of its own. -/
theorem printf_expands_iff {format' : Nat} {text : ItoaText} {args : List Nat}
    (hstored : Stored u.mem format' (format ++ [0])) (hne : ∀ c ∈ format, c ≠ 0)
    (hmatch : Expands u text format args out) :
    PrintsAll u format' format.length args text out ↔ lonePercent format = false := by
  constructor
  · intro h
    by_contra hlone
    exact not_prints_of_lone hstored hne (Bool.not_eq_false _ ▸ hlone) h
  · exact printf_of_pairs hstored hne hmatch

/-- The format `"%s%%"`, and `"OK"` behind it. -/
def okFormat : UserMemory := ⟨store (fun _ => 0) 0x400000 [37, 115, 37, 37, 0, 79, 75, 0], 0x401000⟩

theorem okFormat_stored (text : ItoaText) : Stored okFormat.mem 0x400000 [37, 115, 37, 37, 0] ∧
    Stored (okFormat.with text) 0x400005 [79, 75, 0] := by
  have hall := stored_append.mp (stored_store (fun _ => 0) 0x400000 ([37, 115, 37, 37, 0] ++ [79, 75, 0]))
  refine ⟨hall.1, fun i hi => ?_⟩
  have houtside : ¬ (0x401000 ≤ 0x400005 + i ∧ 0x400005 + i < 0x401000 + 12) := by
    simp only [List.length_cons, List.length_nil] at hi
    omega
  exact (dif_neg houtside).trans (hall.2 i hi)

theorem printf_ok : PrintsAll okFormat 0x400000 4 [0x400005] (Vector.replicate 12 0) [79, 75, 37] ↔
    lonePercent [37, 115, 37, 37] = false :=
  printf_expands_iff (okFormat_stored (Vector.replicate 12 0)).1 (by simp [percent])
    (@Expands.string okFormat _ [37, 37] [37] [79, 75] [] 0x400005 (okFormat_stored _).2 (by simp) (by simp)
      (.other (by decide) (by decide) (.done _ _)))

/-- `"%"` alone. -/
theorem printf_percent_wrong : ¬ ∀ (u : UserMemory) (format' : Nat) (format out : List UInt8) (args : List Nat)
    (text : ItoaText), Stored u.mem format' (format ++ [0]) → (∀ c ∈ format, c ≠ 0) → Expands u text format args out →
      PrintsAll u format' format.length args text out := by
  intro h
  have hstored : Stored (store (fun _ => 0) 0x400000 [37, 0]) 0x400000 ([37] ++ [0]) := stored_store _ _ _
  exact not_prints_of_lone hstored (by simp) rfl
    (h ⟨_, 0x401000⟩ 0x400000 [37] [37] [] (Vector.replicate 12 0) hstored (by simp) (.lone _ _))

end BasicOS
