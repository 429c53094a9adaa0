import BasicOS.Stdlib.Strtok

/-! Parsing a command.

`basic_os_parse_command` copies the command to an array of 1025 bytes, takes it apart with
`strtok`, and puts a copy of each token into a block of its own. Which requests for a block
are answered is not known. When the first is refused the result is null; but when a later one
is, the loop is left and the list so far is returned, as if the command ended there. So the
parser gives null or all of the command exactly when the first request is refused or all that
are needed are answered (`basicOsParseCommand_complete_iff`). -/
namespace BasicOS
open Lib Program

structure CommandArgument where
  argument : Vector UInt8 512
  next : Option Nat

/-- The tokeniser's state, how many blocks have been asked for, and the blocks: the one a request
is answered with is called by the request's number. -/
structure CommandParser where
  text : Tokenizer
  mallocs : Nat
  blocks : Nat → CommandArgument

def CommandParser.setArgument (s : CommandParser) (k : Nat) (argument : Vector UInt8 512) : CommandParser :=
  {s with blocks := Function.update s.blocks k {s.blocks k with argument := argument}}

def CommandParser.setNext (s : CommandParser) (k : Nat) (next : Option Nat) : CommandParser :=
  {s with blocks := Function.update s.blocks k {s.blocks k with next := next}}

/-- The bytes `strncpy` stores when its size allows so many characters; `none` when it reads on
behind the source's last byte. -/
def strncpyBytes : Nat → List UInt8 → Option (List UInt8)
  | 0, _ => some [0]
  | _ + 1, [] => none
  | n + 1, c :: src => if c = 0 then some [0] else (strncpyBytes n src).map (c :: ·)

/-- An array with these bytes stored at its beginning. -/
def overwrite {n : Nat} (dst : Vector UInt8 n) (bytes : List UInt8) : Vector UInt8 n :=
  Vector.ofFn fun i => bytes.getD i dst[i]

/-- `" "`. -/
def spaces : Delimiters := ⟨⟨[32], List.forall_mem_singleton.mpr (by decide)⟩, by decide⟩

/-- `answers` tells which requests are granted. -/
def mallocArgument (answers : Nat → Bool) : Program Stop CommandParser (Option Nat) := do
  let k := (← get).mallocs
  modify fun s => {s with mallocs := k + 1}
  return if answers k then some k else none

/-- `strncpy(block->argument, token, 512)` and `block->next = 0`. -/
def fillArgument (block token : Nat) : Program Stop CommandParser Unit := do
  let s ← get
  match strncpyBytes 511 (s.text.str.drop token) with
  | none => stop .fault
  | some bytes =>
    modify fun s => s.setArgument block (overwrite (s.blocks block).argument bytes)
    modify fun s => s.setNext block none

def nextToken (str : Option Nat) : Program Stop CommandParser (Option Nat) :=
  zoom CommandParser.text (fun text s => {s with text := text}) (strtok str spaces)

/-- The loop over the tokens behind the first. -/
def parseArguments (answers : Nat → Bool) : Nat → Nat → Option Nat → Program Stop CommandParser Unit
  | 0, _, _ => stop .diverges
  | turns + 1, current, token =>
    match token with
    | none => return ()
    | some token => do
      match ← mallocArgument answers with
      | none => return ()
      | some newCommand =>
        fillArgument newCommand token
        modify fun s => s.setNext current (some newCommand)
        let token ← nextToken none
        parseArguments answers turns newCommand token

/-- The list, from the first token on; the loop takes no more turns than `scommand` has bytes. -/
def buildArguments (answers : Nat → Bool) : Option Nat → Program Stop CommandParser (Option Nat)
  | none => return none
  | some token => do
    match ← mallocArgument answers with
    | none => return none
    | some rootArgument =>
      fillArgument rootArgument token
      let token ← nextToken none
      parseArguments answers 1025 rootArgument token
      return some rootArgument

/-- `scommand` is the array on the stack as the call finds it. -/
def basicOsParseCommand (answers : Nat → Bool) (scommand : Vector UInt8 1025) (command : CStr) (max : Int) :
    Program Stop CommandParser (Option Nat) := do
  if max ≥ 1025 then return none
  match strncpyBytes 1024 command.object with
  | none => stop .fault
  | some bytes =>
    modify fun s => {s with text := {s.text with str := (overwrite scommand bytes).toList}}
    let token ← nextToken (some 0)
    buildArguments answers token

/-- From the pointer on the blocks hold these arguments, in order. -/
def Listed (blocks : Nat → CommandArgument) : List (List UInt8) → Option Nat → Prop
  | [], p => p = none
  | a :: rest, p => ∃ k, p = some k ∧ StringAt (blocks k).argument.toList 0 a ∧ Listed blocks rest (blocks k).next

/-- The tokens of the command, as long as an argument can be. -/
def commandTokens (command : CStr) : List (List UInt8) :=
  (words spaces.has (command.chars.take 1024)).map fun token => token.take 511

/-- The tokens until a request is refused, when so many have been made. -/
def answered {A : Type} (answers : Nat → Bool) : Nat → List A → List A
  | _, [] => []
  | k, token :: more => if answers k then token :: answered answers (k + 1) more else []

/-- The token just taken is the first of these, and the others are still to come. -/
def Fetched (t : Tokenizer) (token : Option Nat) : List (List UInt8) → Prop
  | [] => token = none
  | w :: more => ∃ p done rest after, token = some p ∧ StringAt t.str p w ∧ t.At done rest after ∧
      words spaces.has rest = more

variable {answers : Nat → Bool} {s : CommandParser} {n : Nat} {w : List UInt8} {tokens : List (List UInt8)}

/-! ### Copies -/

theorem strncpyBytes_eq (hne : ∀ c ∈ w, c ≠ 0) (n : Nat) (behind : List UInt8) :
    strncpyBytes n (w ++ 0 :: behind) = some (w.take n ++ [0]) := by
  induction n generalizing w with
  | zero =>
    rw [List.take_zero]
    rfl
  | succ n ih =>
    cases w with
    | nil => rfl
    | cons c w =>
      rw [List.cons_append, strncpyBytes, if_neg (hne c (List.mem_cons_self ..)),
        ih fun a ha => hne a (List.mem_cons_of_mem c ha)]
      rfl

theorem overwrite_toList (dst : Vector UInt8 n) {bytes : List UInt8} (h : bytes.length ≤ n) :
    (overwrite dst bytes).toList = bytes ++ dst.toList.drop bytes.length := by
  have hlen : (overwrite dst bytes).toList.length = (bytes ++ dst.toList.drop bytes.length).length := by
    rw [Vector.length_toList, List.length_append, List.length_drop, Vector.length_toList]
    omega
  apply List.ext_getElem hlen
  intro i h1 h2
  rw [Vector.getElem_toList]
  unfold overwrite
  rw [Vector.getElem_ofFn, List.getD_eq_getElem?_getD]
  by_cases hi : i < bytes.length
  · rw [List.getElem_append_left hi]
    simp [hi]
  · have hback : bytes.length + (i - bytes.length) = i := by omega
    rw [List.getElem_append_right (by omega)]
    simp [hi, hback]

/-- What is stored with its zero is a string. -/
theorem overwrite_stringAt (dst : Vector UInt8 n) (hne : ∀ c ∈ w, c ≠ 0) (h : w.length < n) :
    StringAt (overwrite dst (w ++ [0])).toList 0 w := by
  refine ⟨hne, dst.toList.drop (w ++ [0]).length, ?_⟩
  rw [overwrite_toList dst (by rw [List.length_append]; exact h), List.append_assoc]
  rfl

theorem StringAt.unique {str w w' : List UInt8} {p : Nat} (h : StringAt str p w) (h' : StringAt str p w') : w = w' := by
  obtain ⟨hne, behind, hdrop⟩ := h
  obtain ⟨hne', behind', hdrop'⟩ := h'
  have hsame : w ++ 0 :: behind = w' ++ 0 :: behind' := hdrop.symm.trans hdrop'
  have htake : ∀ {x y : List UInt8}, (∀ c ∈ x, c ≠ 0) → (x ++ 0 :: y).takeWhile (· ≠ 0) = x := by
    intro x y hx
    rw [List.takeWhile_append_of_pos (fun c hc => by simpa using hx c hc)]
    simp
  rw [← htake hne, hsame, htake hne']

/-! ### One block -/

@[simp] theorem setArgument_self (k : Nat) (a : Vector UInt8 512) :
    (s.setArgument k a).blocks k = {s.blocks k with argument := a} := Function.update_self ..

@[simp] theorem setNext_self (k : Nat) (next : Option Nat) :
    (s.setNext k next).blocks k = {s.blocks k with next := next} := Function.update_self ..

theorem setArgument_of_ne {j k : Nat} (h : j ≠ k) (a : Vector UInt8 512) :
    (s.setArgument k a).blocks j = s.blocks j := Function.update_of_ne h ..

theorem setNext_of_ne {j k : Nat} (h : j ≠ k) (next : Option Nat) : (s.setNext k next).blocks j = s.blocks j :=
  Function.update_of_ne h ..

/-- A block once its token has been copied. -/
def CommandParser.filled (s : CommandParser) (k : Nat) (w : List UInt8) : CommandParser :=
  (s.setArgument k (overwrite (s.blocks k).argument (w.take 511 ++ [0]))).setNext k none

theorem filled_next (k : Nat) (w : List UInt8) : ((s.filled k w).blocks k).next = none := by
  unfold CommandParser.filled
  rw [setNext_self]

theorem filled_argument {k : Nat} (hne : ∀ c ∈ w, c ≠ 0) :
    StringAt ((s.filled k w).blocks k).argument.toList 0 (w.take 511) := by
  have hlen : (w.take 511).length < 512 := Nat.lt_succ_of_le (List.length_take_le 511 w)
  unfold CommandParser.filled
  rw [setNext_self, setArgument_self]
  exact overwrite_stringAt _ (fun c hc => hne c (List.mem_of_mem_take hc)) hlen

theorem filled_of_ne {j k : Nat} (h : j ≠ k) (w : List UInt8) : (s.filled k w).blocks j = s.blocks j := by
  unfold CommandParser.filled
  rw [setNext_of_ne h, setArgument_of_ne h]

theorem mallocArgument_apply (answers : Nat → Bool) (s : CommandParser) : mallocArgument answers s =
    .ok (if answers s.mallocs then some s.mallocs else none, {s with mallocs := s.mallocs + 1}) := rfl

theorem fillArgument_eq {token : Nat} (h : StringAt s.text.str token w) (k : Nat) :
    fillArgument k token s = .ok ((), s.filled k w) := by
  obtain ⟨hne, behind, hdrop⟩ := h
  unfold fillArgument
  rw [bind_apply, get_apply]
  simp only [hdrop, strncpyBytes_eq hne]
  rfl

/-- The next token, when the rest of the text is known. -/
theorem nextToken_fetched {done rest after : List UInt8} (h : s.text.At done rest after) :
    ∃ token text, nextToken none s = .ok (token, {s with text := text}) ∧
      Fetched text token (words spaces.has rest) := by
  unfold nextToken
  cases hwords : words spaces.has rest with
  | nil =>
    refine ⟨none, {s.text with sp := none}, ?_, rfl⟩
    exact zoom_ok.mpr ⟨none, _, strtok_end h hwords, rfl⟩
  | cons w more =>
    obtain ⟨p, text, done', rest', hcall, hat, hmore, hstring, _, _⟩ := strtok_token h hwords
    refine ⟨some p, text, ?_, p, done', rest', after, rfl, hstring, hat, hmore⟩
    exact zoom_ok.mpr ⟨some p, text, hcall, rfl⟩

/-! ### The list -/

/-- The loop puts the tokens behind the current block, until a request is refused. -/
theorem parseArguments_spec (answers : Nat → Bool) {current turns : Nat} {token : Option Nat}
    (hfetched : Fetched s.text token tokens) (hcurrent : current < s.mallocs)
    (hnext : (s.blocks current).next = none) (hturns : tokens.length < turns) :
    ∃ s', parseArguments answers turns current token s = .ok ((), s') ∧
      (∀ k, k < s.mallocs → k ≠ current → s'.blocks k = s.blocks k) ∧
      (s'.blocks current).argument = (s.blocks current).argument ∧
      Listed s'.blocks ((answered answers s.mallocs tokens).map fun token => token.take 511)
        (s'.blocks current).next := by
  induction tokens generalizing s current token turns with
  | nil =>
    obtain ⟨turns, rfl⟩ := Nat.exists_eq_add_one_of_ne_zero (Nat.ne_of_gt hturns)
    obtain rfl : token = none := hfetched
    exact ⟨s, rfl, fun k _ _ => rfl, rfl, hnext⟩
  | cons w more ih =>
    obtain ⟨turns, rfl⟩ := Nat.exists_eq_add_one_of_ne_zero (Nat.ne_of_gt (Nat.zero_lt_of_lt hturns))
    obtain ⟨p, done, rest, after, rfl, hstring, hat, hmore⟩ := hfetched
    unfold parseArguments answered
    simp only
    rw [bind_apply, mallocArgument_apply]
    by_cases hanswer : answers s.mallocs = true
    · simp only [if_pos hanswer]
      have hne : current ≠ s.mallocs := Nat.ne_of_lt hcurrent
      let s₁ : CommandParser := {s with mallocs := s.mallocs + 1}
      let s₂ := (s₁.filled s.mallocs w).setNext current (some s.mallocs)
      obtain ⟨token, text, hcall, hfetched⟩ := nextToken_fetched (s := s₂) hat
      rw [hmore] at hfetched
      obtain ⟨s', hloop, hkept, hargument, hlist⟩ := ih (s := {s₂ with text := text}) hfetched
        (Nat.lt_succ_self s.mallocs)
        (by
          show (s₂.blocks s.mallocs).next = none
          rw [setNext_of_ne hne.symm, filled_next])
        (Nat.lt_of_succ_lt_succ hturns)
      have hold : ∀ k, k < s.mallocs → s'.blocks k = s₂.blocks k := fun k hk =>
        hkept k (Nat.lt_succ_of_lt hk) (Nat.ne_of_lt hk)
      have hnew : (s'.blocks current).next = some s.mallocs := by
        rw [hold current hcurrent, setNext_self]
      refine ⟨s', ?_, fun k hk hkne => ?_, ?_, s.mallocs, hnew, ?_, hlist⟩
      · rw [bind_apply, fillArgument_eq (s := s₁) hstring]
        simp only
        rw [bind_apply, modify_apply]
        simp only
        rw [bind_apply, hcall]
        exact hloop
      · rw [hold k hk, setNext_of_ne hkne, filled_of_ne (Nat.ne_of_lt hk)]
      · rw [hold current hcurrent, setNext_self, filled_of_ne hne]
      · rw [hargument]
        show StringAt (s₂.blocks s.mallocs).argument.toList 0 _
        rw [setNext_of_ne hne.symm]
        exact filled_argument hstring.1
    · simp only [if_neg hanswer]
      exact ⟨{s with mallocs := s.mallocs + 1}, rfl, fun k _ _ => rfl, rfl, hnext⟩

/-- A list has one reading. -/
theorem Listed.unique {blocks : Nat → CommandArgument} {as bs : List (List UInt8)} {p : Option Nat}
    (ha : Listed blocks as p) (hb : Listed blocks bs p) : as = bs := by
  induction as generalizing bs p with
  | nil =>
    obtain rfl : p = none := ha
    cases bs with
    | nil => rfl
    | cons b bs =>
      obtain ⟨k, hk, _⟩ := hb
      cases hk
  | cons a as ih =>
    obtain ⟨k, rfl, hstring, hrest⟩ := ha
    cases bs with
    | nil => cases hb
    | cons b bs =>
      obtain ⟨_, hk, hstring', hrest'⟩ := hb
      obtain rfl := Option.some.inj hk
      rw [hstring.unique hstring', ih hrest hrest']

theorem answered_all {A : Type} {k : Nat} {l : List A} (h : ∀ i, i < l.length → answers (k + i) = true) :
    answered answers k l = l := by
  induction l generalizing k with
  | nil => rfl
  | cons a l ih =>
    have hrest : ∀ i, i < l.length → answers (k + 1 + i) = true := by
      intro i hi
      rw [Nat.add_assoc, Nat.add_comm 1]
      exact h (i + 1) (Nat.succ_lt_succ hi)
    have hfirst : answers k = true := h 0 (Nat.succ_pos _)
    rw [answered, if_pos hfirst, ih hrest]

theorem answered_of_length {A : Type} {k : Nat} {l : List A} (h : (answered answers k l).length = l.length) {i : Nat}
    (hi : i < l.length) : answers (k + i) = true := by
  induction l generalizing k i with
  | nil => cases hi
  | cons a l ih =>
    unfold answered at h
    split at h
    · rename_i hk
      cases i with
      | zero => exact hk
      | succ i =>
        rw [Nat.add_comm i, ← Nat.add_assoc]
        exact ih (Nat.succ.inj h) (Nat.lt_of_succ_lt_succ hi)
    · cases h

theorem nextToken_start (p : Nat) (s : CommandParser) :
    nextToken (some p) s = nextToken none {s with text := {s.text with sp := some p}} := rfl

/-- After the copy the text is the first 1024 characters of the command. -/
theorem copied_at (scommand : Vector UInt8 1025) (command : CStr) :
    Tokenizer.At ⟨(overwrite scommand (command.chars.take 1024 ++ [0])).toList, some 0⟩ [] (command.chars.take 1024)
      (scommand.toList.drop (command.chars.take 1024 ++ [0]).length) := by
  have hlen : (command.chars.take 1024 ++ [0]).length ≤ 1025 := by
    rw [List.length_append]
    exact Nat.succ_le_succ (List.length_take_le ..)
  refine ⟨?_, rfl, fun c hc => command.nonzero c (List.mem_of_mem_take hc)⟩
  simp only
  rw [overwrite_toList _ hlen, List.append_assoc, List.nil_append, List.singleton_append]

/-- From the first token on: null, or a list of as many tokens as blocks were granted. -/
theorem buildArguments_spec (answers : Nat → Bool) (blocks : Nat → CommandArgument) {text : Tokenizer}
    {token : Option Nat} (hfetched : Fetched text token tokens) (hcount : tokens.length < 1025) :
    ∃ root s', buildArguments answers token ⟨text, 0, blocks⟩ = .ok (root, s') ∧
      Listed s'.blocks ((answered answers 0 tokens).map fun token => token.take 511) root := by
  cases tokens with
  | nil =>
    obtain rfl : token = none := hfetched
    exact ⟨none, _, rfl, rfl⟩
  | cons w more =>
    obtain ⟨p, done, rest, after, rfl, hstring, hat, hmore⟩ := hfetched
    unfold buildArguments answered
    simp only
    rw [bind_apply, mallocArgument_apply]
    by_cases hanswer : answers 0 = true
    · let s₁ : CommandParser := (CommandParser.mk text 1 blocks).filled 0 w
      obtain ⟨token, text₂, hcall, hfetched⟩ := nextToken_fetched (s := s₁) hat
      rw [hmore] at hfetched
      obtain ⟨s', hloop, _, hargument, hlist⟩ := parseArguments_spec answers
        (s := {s₁ with text := text₂}) hfetched Nat.zero_lt_one (filled_next 0 w) (Nat.lt_of_succ_lt hcount)
      simp only [if_pos hanswer]
      refine ⟨some 0, s', ?_, 0, rfl, ?_, hlist⟩
      · rw [bind_apply, fillArgument_eq (s := ⟨text, 1, blocks⟩) hstring]
        simp only
        rw [bind_apply, hcall]
        simp only
        rw [bind_apply, hloop]
        rfl
      · rw [hargument]
        have hfilled : StringAt (s₁.blocks 0).argument.toList 0 (w.take 511) := filled_argument hstring.1
        exact hfilled
    · simp only [if_neg hanswer]
      exact ⟨none, _, rfl, rfl⟩

/-- A list that is not null has all of the tokens exactly when all requests were answered. -/
theorem listed_all_iff {blocks : Nat → CommandArgument} {root : Option Nat}
    (h : Listed blocks ((answered answers 0 tokens).map fun token => token.take 511) root) :
    (root = none ∨ Listed blocks (tokens.map fun token => token.take 511) root) ↔
      answers 0 = false ∨ ∀ i, i < tokens.length → answers i = true := by
  constructor
  · rintro (rfl | hall)
    · cases tokens with
      | nil => exact .inr fun i hi => absurd hi (Nat.not_lt_zero i)
      | cons w more =>
        cases hanswer : answers 0 with
        | false => exact .inl rfl
        | true =>
          unfold answered at h
          rw [if_pos hanswer] at h
          obtain ⟨k, hk, _⟩ := h
          cases hk
    · refine .inr fun i hi => ?_
      have hlength := congrArg List.length (h.unique hall)
      rw [List.length_map, List.length_map] at hlength
      have hgranted := answered_of_length hlength hi
      rwa [Nat.zero_add] at hgranted
  · rintro (hrefused | hgranted)
    · left
      cases tokens with
      | nil => exact h
      | cons w more =>
        unfold answered at h
        rw [hrefused] at h
        exact h
    · right
      rwa [answered_all fun i hi => by rw [Nat.zero_add]; exact hgranted i hi] at h

/-- From a text in the array: as many of its words as blocks were granted. -/
theorem tokens_spec (answers : Nat → Bool) (blocks : Nat → CommandArgument) {array rest after : List UInt8}
    (hat : Tokenizer.At ⟨array, some 0⟩ [] rest after) (hcount : (words spaces.has rest).length < 1025)
    (sp : Option Nat) :
    ∃ root s', (nextToken (some 0) >>= buildArguments answers) ⟨⟨array, sp⟩, 0, blocks⟩ = .ok (root, s') ∧
      Listed s'.blocks ((answered answers 0 (words spaces.has rest)).map fun token => token.take 511) root := by
  obtain ⟨token, text, hcall, hfetched⟩ := nextToken_fetched (s := ⟨_, 0, blocks⟩) hat
  obtain ⟨root, s', hbuild, hlist⟩ := buildArguments_spec answers blocks hfetched hcount
  refine ⟨root, s', ?_, hlist⟩
  rw [bind_apply, nextToken_start, hcall]
  exact hbuild

/-- The parser returns null or a list of as many tokens as blocks were granted. -/
theorem basicOsParseCommand_spec (answers : Nat → Bool) (scommand : Vector UInt8 1025) (command : CStr)
    {max : Int} (hmax : max < 1025) (text : Tokenizer) (blocks : Nat → CommandArgument) :
    ∃ root s', basicOsParseCommand answers scommand command max ⟨text, 0, blocks⟩ = .ok (root, s') ∧
      Listed s'.blocks ((answered answers 0 (words spaces.has (command.chars.take 1024))).map fun token =>
        token.take 511) root := by
  have hcount : (words spaces.has (command.chars.take 1024)).length < 1025 :=
    Nat.lt_succ_of_le (Nat.le_trans (length_words_le _) (List.length_take_le ..))
  obtain ⟨root, s', hrun, hlist⟩ := tokens_spec answers blocks (copied_at scommand command) hcount text.sp
  refine ⟨root, s', ?_, hlist⟩
  unfold basicOsParseCommand CStr.object
  rw [if_neg (Int.not_le.mpr hmax), strncpyBytes_eq command.nonzero]
  simp only
  rw [bind_apply, modify_apply]
  exact hrun

/-- **The parser gives null or all of the command exactly when** the first request for a block is
refused, or as many are answered as the command has tokens. -/
theorem basicOsParseCommand_complete_iff (answers : Nat → Bool) (scommand : Vector UInt8 1025) (command : CStr)
    {max : Int} (hmax : max < 1025) (text : Tokenizer) (blocks : Nat → CommandArgument) :
    ∃ root s', basicOsParseCommand answers scommand command max ⟨text, 0, blocks⟩ = .ok (root, s') ∧
      ((root = none ∨ Listed s'.blocks (commandTokens command) root) ↔
        answers 0 = false ∨ ∀ i, i < (commandTokens command).length → answers i = true) := by
  obtain ⟨root, s', hrun, hlist⟩ := basicOsParseCommand_spec answers scommand command hmax text blocks
  refine ⟨root, s', hrun, ?_⟩
  unfold commandTokens
  rw [List.length_map]
  exact listed_all_iff hlist

/-- `"a b"`. -/
def twoTokens : CStr :=
  ⟨[97, 32, 98], List.forall_mem_cons.mpr ⟨by decide, List.forall_mem_cons.mpr ⟨by decide,
    List.forall_mem_singleton.mpr (by decide)⟩⟩⟩

theorem twoTokens_words : words spaces.has (twoTokens.chars.take 1024) = [[97], [98]] := by
  have hall : twoTokens.chars.take 1024 = [97, 32, 98] := List.take_of_length_le (by decide)
  rw [hall]
  rfl

/-- Blocks and a tokeniser nobody has used. -/
def freshParser : CommandParser := ⟨⟨[], none⟩, 0, fun _ => ⟨Vector.replicate 512 0, none⟩⟩

/-- Two tokens and two blocks. -/
theorem basicOsParseCommand_complete_two : ∃ root s',
    basicOsParseCommand (fun _ => true) (Vector.replicate 1025 0) twoTokens 100 freshParser = .ok (root, s') ∧
      (root = none ∨ Listed s'.blocks (commandTokens twoTokens) root) := by
  obtain ⟨root, s', hrun, hiff⟩ := basicOsParseCommand_complete_iff (fun _ => true) (Vector.replicate 1025 0) twoTokens
    (show (100 : Int) < 1025 by decide) ⟨[], none⟩ fun _ => ⟨Vector.replicate 512 0, none⟩
  exact ⟨root, s', hrun, hiff.mpr (.inr fun _ _ => rfl)⟩

/-- The second request is refused, and the list has one of the two tokens. -/
theorem basicOsParseCommand_drops : ∃ root s',
    basicOsParseCommand (fun k => k = 0) (Vector.replicate 1025 0) twoTokens 100 freshParser = .ok (root, s') ∧
      Listed s'.blocks [[97]] root ∧ ¬ (root = none ∨ Listed s'.blocks (commandTokens twoTokens) root) := by
  obtain ⟨root, s', hrun, hlist⟩ := basicOsParseCommand_spec (fun k => k = 0) (Vector.replicate 1025 0) twoTokens
    (show (100 : Int) < 1025 by decide) ⟨[], none⟩ fun _ => ⟨Vector.replicate 512 0, none⟩
  rw [twoTokens_words] at hlist
  have hone : Listed s'.blocks [[97]] root := hlist
  refine ⟨root, s', hrun, hone, fun hcomplete => ?_⟩
  rcases hcomplete with hnull | hall
  · obtain ⟨k, hk, _⟩ := hone
    rw [hnull] at hk
    cases hk
  · unfold commandTokens at hall
    rw [twoTokens_words] at hall
    have hlength := congrArg List.length (hone.unique hall)
    cases hlength

end BasicOS
