import SecureLedger.Lib.Py
import Mathlib.Data.List.Chain

/-!
# Lib.Json — reading JSON

`read` is `json.loads`: it takes a document's code points one by one and gives its value, or nothing.
Integers are exact; any other number stays the token that it was written as.  Two escapes that are a
surrogate pair are read as one code point, so that in what is read no high surrogate stands right before
a low one, and an object has each key once: `wf_of_read`.
-/

namespace Json

open Py (Code Text code lit)

/-- What a document says. -/
inductive Value where
  | null
  | bool (b : Bool)
  | int (n : ℤ)
  | float (token : Text)
  | str (s : Text)
  | list (items : List Value)
  | dict (items : List (Text × Value))

/-! ### Looking into a value -/

namespace Value

/-- `d.get(key)`, of a dictionary. -/
def member? (key : String) : Value → Option Value
  | .dict items => items.lookup (lit key)
  | _ => none

def list? : Value → Option (List Value)
  | .list items => some items
  | _ => none

def text? : Value → Option Text
  | .str s => some s
  | _ => none

/-- The items of the list under a key. -/
def itemsOf (key : String) (v : Value) : List Value := ((v.member? key).bind list?).getD []

/-- The string under a key. -/
def textOf (key : String) (v : Value) : Option Text := (v.member? key).bind text?

end Value

/-! ### Code points -/

def codeOf (n : ℕ) : Code := Fin.ofNat 0x110000 n

def quotation : Code := codeOf 0x22
def backslash : Code := codeOf 0x5C
def lbrace : Code := codeOf 0x7B
def rbrace : Code := codeOf 0x7D

def isHigh (c : Code) : Bool := 0xD800 ≤ c.val && c.val ≤ 0xDBFF

def isLow (c : Code) : Bool := 0xDC00 ≤ c.val && c.val ≤ 0xDFFF

/-- The code point that a surrogate pair stands for. -/
def joinPair (high low : Code) : Code := codeOf (0x10000 + (high.val - 0xD800) * 0x400 + (low.val - 0xDC00))

def isSpace (c : Code) : Bool := c.val = 0x20 || c.val = 0x9 || c.val = 0xA || c.val = 0xD

def isDigit (c : Code) : Bool := 0x30 ≤ c.val && c.val ≤ 0x39

/-- The value of a hexadecimal digit. -/
def hexValue? (c : Code) : Option ℕ :=
  let n := c.val
  if 0x30 ≤ n ∧ n ≤ 0x39 then some (n - 0x30)
  else if 0x41 ≤ n ∧ n ≤ 0x46 then some (n - 0x37)
  else if 0x61 ≤ n ∧ n ≤ 0x66 then some (n - 0x57)
  else none

/-- What stands after a backslash, and what for. -/
def escapes : List (Code × Code) :=
  [(quotation, quotation), (backslash, backslash), (code '/', code '/'), (code 'b', codeOf 0x8),
    (code 'f', codeOf 0xC), (code 'n', codeOf 0xA), (code 'r', codeOf 0xD), (code 't', codeOf 0x9)]

/-- A string with one more unit that was written with `\u`; `escaped` says that the last one was, too. -/
def addUnit (s : Text) (escaped : Bool) (c : Code) : Text :=
  let high := s.getLast?.getD 0
  if escaped && isHigh high && isLow c then s.dropLast ++ [joinPair high c] else s ++ [c]

/-! ### Numbers -/

/-- What of a number has been read. -/
inductive Part where
  | start
  | minus
  | zero
  | digits
  | point
  | fraction
  | exponent
  | sign
  | power
  deriving DecidableEq

/-- The part that one more code point leads to. -/
def Part.next (part : Part) (c : Code) : Option Part :=
  let integer := if c = code '0' then some zero else if isDigit c then some digits else none
  let more := if c = code '.' then some point else if c = code 'e' ∨ c = code 'E' then some exponent else none
  match part with
  | start => if c = code '-' then some minus else integer
  | minus => integer
  | zero => more
  | digits => if isDigit c then some digits else more
  | point => if isDigit c then some fraction else none
  | fraction =>
    if isDigit c then some fraction else if c = code 'e' ∨ c = code 'E' then some exponent else none
  | exponent => if c = code '+' ∨ c = code '-' then some sign else if isDigit c then some power else none
  | sign | power => if isDigit c then some power else none

def natOf (s : Text) : ℕ := s.foldl (fun n c => 10 * n + (c.val - 0x30)) 0

def intOf (token : Text) : ℤ :=
  if token.head? = some (code '-') then -natOf token.tail else natOf token

/-- The value of a token, if it may end in this part. -/
def Part.value? (part : Part) (token : Text) : Option Value :=
  match part with
  | zero | digits => some (.int (intOf token))
  | fraction | power => some (.float token)
  | _ => none

/-- The values that are words. -/
def constants : List (Text × Value) :=
  [(lit "null", .null), (lit "true", .bool true), (lit "false", .bool false),
    (lit "NaN", .float (lit "NaN")), (lit "Infinity", .float (lit "Infinity"))]

/-! ### The reader -/

/-- What is open: a list with its items so far; a dictionary, before a key or before the value of a key. -/
inductive Frame where
  | list (items : List Value)
  | key (items : List (Text × Value))
  | value (items : List (Text × Value)) (key : Text)

/-- Where the reader stands. -/
inductive Mode where
  /-- before a value or a key -/
  | value
  /-- after an opening bracket -/
  | first
  /-- after a key -/
  | colon
  /-- after a value -/
  | after
  /-- in a string, after its backslash, after so many of the four digits -/
  | string (s : Text) (escaped : Bool)
  | escape (s : Text) (escaped : Bool)
  | unicode (s : Text) (escaped : Bool) (count n : ℕ)
  | number (part : Part) (token : Text)
  /-- before the rest of a word -/
  | word (rest : Text) (v : Value)

structure Reader where
  mode : Mode
  /-- innermost first -/
  stack : List Frame
  root : Option Value

namespace Reader

variable (r : Reader)

def goto (mode : Mode) : Option Reader := some { r with mode := mode }

/-- A value is complete. -/
def put (v : Value) : Option Reader :=
  match r.stack with
  | [] => some ⟨.after, [], some v⟩
  | .list items :: stack => some ⟨.after, .list (items ++ [v]) :: stack, r.root⟩
  | .value items key :: stack => some ⟨.after, .key (Py.setItem key v items) :: stack, r.root⟩
  | .key _ :: _ => none

/-- A string is complete. -/
def endString (s : Text) : Option Reader :=
  match r.stack with
  | .key items :: stack => some ⟨.colon, .value items s :: stack, r.root⟩
  | _ => r.put (.str s)

/-- The first code point of a value, or of a key. -/
def start (c : Code) : Option Reader :=
  if c = quotation then r.goto (.string [] false)
  else match r.stack with
    | .key _ :: _ => none
    | _ =>
      if c = code '[' then some ⟨.first, .list [] :: r.stack, r.root⟩
      else if c = lbrace then some ⟨.first, .key [] :: r.stack, r.root⟩
      else match constants.find? fun p => p.1.head? = some c with
        | some p => r.goto (.word p.1.tail p.2)
        | none => (Part.start.next c).bind fun part => r.goto (.number part [c])

/-- A bracket closes what was opened last. -/
def close (c : Code) : Option Reader :=
  match r.stack with
  | .list items :: stack => if c = code ']' then { r with stack := stack }.put (.list items) else none
  | .key items :: stack => if c = rbrace then { r with stack := stack }.put (.dict items) else none
  | _ => none

def afterValue (c : Code) : Option Reader :=
  if isSpace c then some r
  else if c = code ',' then if r.stack.isEmpty then none else r.goto .value
  else r.close c

/-- The reader with the number complete that it may be in. -/
def settle : Option Reader :=
  match r.mode with
  | .number part token => (part.value? token).bind r.put
  | _ => some r

/-- One code point. -/
def feed (c : Code) : Option Reader :=
  match r.mode with
  | .value => if isSpace c then some r else r.start c
  | .first =>
    if isSpace c then some r else if c = code ']' ∨ c = rbrace then r.close c else r.start c
  | .colon => if isSpace c then some r else if c = code ':' then r.goto .value else none
  | .after => r.afterValue c
  | .string s escaped =>
    if c = quotation then r.endString s
    else if c = backslash then r.goto (.escape s escaped)
    else if c.val < 0x20 then none
    else r.goto (.string (s ++ [c]) false)
  | .escape s escaped =>
    if c = code 'u' then r.goto (.unicode s escaped 0 0)
    else (escapes.lookup c).bind fun d => r.goto (.string (s ++ [d]) false)
  | .unicode s escaped count n =>
    (hexValue? c).bind fun d =>
      if count = 3 then r.goto (.string (addUnit s escaped (codeOf (16 * n + d))) true)
      else r.goto (.unicode s escaped (count + 1) (16 * n + d))
  | .number part token =>
    match part.next c with
    | some part => r.goto (.number part (token ++ [c]))
    | none =>
      if part = .minus ∧ c = code 'I' then r.goto (.word (lit "nfinity") (.float (lit "-Infinity")))
      else r.settle.bind fun r => r.afterValue c
  | .word rest v =>
    if rest.head? = some c then
      if rest.tail.isEmpty then r.put v else r.goto (.word rest.tail v)
    else none

/-- The value, once nothing is open. -/
def result : Option Value :=
  r.settle.bind fun r =>
    match r.mode, r.stack with
    | .after, [] => r.root
    | _, _ => none

end Reader

/-- Read on. -/
def run (r : Reader) (text : Text) : Option Reader := text.foldlM Reader.feed r

/-- `json.loads`. -/
def read (text : Text) : Option Value := (run ⟨.value, [], none⟩ text).bind Reader.result

theorem run_append {r : Reader} {s t : Text} : run r (s ++ t) = (run r s).bind fun r => run r t :=
  List.foldlM_append

theorem run_cons {r : Reader} {c : Code} {s : Text} : run r (c :: s) = (r.feed c).bind fun r => run r s := rfl

/-! ### Whole texts -/

/-- No high surrogate stands right before a low one. -/
def Whole (s : Text) : Prop := s.IsChain fun a b => ¬ (isHigh a ∧ isLow b)

instance instDecidableWhole (s : Text) : Decidable (Whole s) := inferInstanceAs (Decidable (List.IsChain _ s))

theorem whole_nil : Whole [] := .nil

theorem whole_append {s t : Text} : Whole (s ++ t) ↔
    Whole s ∧ Whole t ∧ ∀ a ∈ s.getLast?, ∀ b ∈ t.head?, ¬ (isHigh a ∧ isLow b) := List.isChain_append

theorem whole_concat {s : Text} {c : Code} :
    Whole (s ++ [c]) ↔ Whole s ∧ ∀ a ∈ s.getLast?, ¬ (isHigh a ∧ isLow c) := by
  rw [whole_append]
  simp [Whole]

theorem whole_of_not_high {s : Text} (h : ∀ c ∈ s, ¬ isHigh c) : Whole s := by
  induction s with
  | nil => exact .nil
  | cons c s ih =>
    refine List.isChain_cons.mpr ⟨fun b _ hab => h c (List.mem_cons_self ..) hab.1, ?_⟩
    exact ih fun d hd => h d (List.mem_cons_of_mem _ hd)

/-- A text without surrogates, such as one that was decoded. -/
def Decoded (s : Text) : Prop := ∀ c ∈ s, ¬ isHigh c ∧ ¬ isLow c

theorem Decoded.whole {s : Text} (h : Decoded s) : Whole s := whole_of_not_high fun c hc => (h c hc).1

theorem decoded_nil : Decoded [] := fun _ hc => absurd hc List.not_mem_nil

theorem decoded_append {s t : Text} : Decoded (s ++ t) ↔ Decoded s ∧ Decoded t := List.forall_mem_append

/-- A `Char` is no surrogate. -/
theorem not_surrogate (d : Char) : ¬ isHigh (code d) ∧ ¬ isLow (code d) := by
  have hvalid : d.toNat.isValidChar := d.valid
  have hval : (code d).val = d.toNat := rfl
  unfold Nat.isValidChar at hvalid
  simp only [isHigh, isLow, Bool.and_eq_true, decide_eq_true_eq, hval]
  omega

theorem decoded_lit (s : String) : Decoded (lit s) := by
  intro c hc
  obtain ⟨d, -, rfl⟩ := List.mem_map.mp hc
  exact not_surrogate d

theorem Decoded.of_sublist {s t : Text} (h : Decoded t) (hs : s.Sublist t) : Decoded s :=
  fun c hc => h c (hs.subset hc)

theorem Decoded.strip {s : Text} (h : Decoded s) : Decoded (Py.strip s) := by
  have hstart : Py.strip s <+: s.dropWhile Py.isSpace := List.rdropWhile_prefix Py.isSpace _
  exact h.of_sublist (hstart.sublist.trans (List.dropWhile_sublist _))

theorem Whole.dropWhile {s : Text} (h : Whole s) (p : Code → Bool) : Whole (s.dropWhile p) :=
  List.IsChain.suffix h (List.dropWhile_suffix _)

theorem Whole.rdropWhile {s : Text} (h : Whole s) (p : Code → Bool) : Whole (s.rdropWhile p) := by
  obtain ⟨t, ht⟩ := List.rdropWhile_prefix p (l := s)
  exact (whole_append.mp (ht ▸ h)).1

theorem Whole.strip {s : Text} (h : Whole s) : Whole (Py.strip s) := (h.dropWhile _).rdropWhile _

/-- Something decoded after a whole text. -/
theorem Whole.append_decoded {s t : Text} (h : Whole s) (ht : Decoded t) : Whole (s ++ t) :=
  whole_append.mpr ⟨h, ht.whole, fun _ _ b hb hab => (ht b (List.mem_of_mem_head? hb)).2 hab.2⟩

theorem Decoded.append_whole {s t : Text} (h : Decoded s) (ht : Whole t) : Whole (s ++ t) :=
  whole_append.mpr ⟨h.whole, ht, fun a ha _ _ hab => (h a (List.mem_of_getLast? ha)).1 hab.1⟩

/-- Something decoded between whole texts. -/
theorem Whole.append_between {s sep t : Text} (h : Whole s) (hsep : Decoded sep) (hne : sep ≠ []) (ht : Whole t) :
    Whole (s ++ (sep ++ t)) := by
  refine whole_append.mpr ⟨h, hsep.append_whole ht, fun _ _ b hb hab => ?_⟩
  obtain ⟨c, sep, rfl⟩ := List.exists_cons_of_ne_nil hne
  cases hb
  exact (hsep _ (List.mem_cons_self ..)).2 hab.2

theorem Whole.join {sep : Text} (hsep : Decoded sep) (hne : sep ≠ []) : ∀ {l : List Text}, (∀ s ∈ l, Whole s) →
    Whole (Py.join sep l)
  | [], _ => whole_nil
  | [s], h => by
    rw [Py.join, List.flatMap_nil, List.append_nil]
    exact h s (List.mem_cons_self ..)
  | s :: t :: l, h => by
    have hrest := @Whole.join sep hsep hne (t :: l) fun u hu => h u (List.mem_cons_of_mem _ hu)
    rw [Py.join, List.flatMap_cons, List.append_assoc]
    exact (h s (List.mem_cons_self ..)).append_between hsep hne hrest

/-! ### What is read -/

/-- A number that is not an integer. -/
def isFloat (token : Text) : Bool :=
  [lit "NaN", lit "Infinity", lit "-Infinity"].contains token ||
    (token.foldlM Part.next .start).any fun part => part = .fraction || part = .power

/-- What a document can say. -/
inductive Value.Wf : Value → Prop
  | null : Wf .null
  | bool (b : Bool) : Wf (.bool b)
  | int (n : ℤ) : Wf (.int n)
  | float {token : Text} (h : isFloat token) : Wf (.float token)
  | str {s : Text} (h : Whole s) : Wf (.str s)
  | list {items : List Value} (h : ∀ v ∈ items, Wf v) : Wf (.list items)
  | dict {items : List (Text × Value)} (hnodup : (items.map Prod.fst).Nodup) (hkeys : ∀ p ∈ items, Whole p.1)
      (h : ∀ p ∈ items, Wf p.2) : Wf (.dict items)

/-- A string so far: a high surrogate at its end was escaped. -/
structure Pending (s : Text) (escaped : Bool) : Prop where
  whole : Whole s
  high : ∀ c ∈ s.getLast?, isHigh c → escaped

def Frame.Wf : Frame → Prop
  | .list items => ∀ v ∈ items, v.Wf
  | .key items => (Value.dict items).Wf
  | .value items k => (Value.dict items).Wf ∧ Whole k

def Mode.Wf : Mode → Prop
  | .string s escaped | .escape s escaped | .unicode s escaped _ _ => Pending s escaped
  | .number part token => token.foldlM Part.next .start = some part
  | .word _ v => v.Wf
  | _ => True

structure Reader.Wf (r : Reader) : Prop where
  mode : r.mode.Wf
  stack : ∀ f ∈ r.stack, f.Wf
  root : ∀ v ∈ r.root, v.Wf

theorem Pending.nil : Pending [] false := ⟨whole_nil, fun _ h => absurd h (by simp)⟩

theorem Pending.concat {s : Text} {escaped : Bool} {c : Code} (h : Pending s escaped)
    (hc : ¬ isHigh c ∧ ¬ isLow c) : Pending (s ++ [c]) false := by
  refine ⟨whole_concat.mpr ⟨h.whole, fun a _ hac => hc.2 hac.2⟩, fun d hd hhigh => ?_⟩
  simp only [List.getLast?_concat, Option.mem_some_iff] at hd
  exact absurd (hd ▸ hhigh) hc.1

theorem joinPair_val {high low : Code} (hhigh : isHigh high) (hlow : isLow low) :
    (joinPair high low).val = 0x10000 + (high.val - 0xD800) * 0x400 + (low.val - 0xDC00) := by
  simp only [isHigh, isLow, Bool.and_eq_true, decide_eq_true_eq] at hhigh hlow
  exact Nat.mod_eq_of_lt (by omega)

/-- A pair is no surrogate. -/
theorem joinPair_decoded {high low : Code} (hhigh : isHigh high) (hlow : isLow low) :
    ¬ isHigh (joinPair high low) ∧ ¬ isLow (joinPair high low) := by
  have hval := joinPair_val hhigh hlow
  simp only [isHigh, isLow, Bool.and_eq_true, decide_eq_true_eq]
  omega

theorem Pending.addUnit {s : Text} {escaped : Bool} {c : Code} (h : Pending s escaped) :
    Pending (addUnit s escaped c) true := by
  refine ⟨?_, fun _ _ _ => rfl⟩
  rcases List.eq_nil_or_concat s with rfl | ⟨s, a, rfl⟩
  · simp [Json.addUnit, Whole, isHigh]
  · rw [List.concat_eq_append] at h ⊢
    obtain ⟨hs, ha⟩ := whole_concat.mp h.whole
    simp only [Json.addUnit, List.getLast?_concat, Option.getD_some, List.dropLast_concat]
    split
    · next hpair =>
      rw [Bool.and_eq_true, Bool.and_eq_true] at hpair
      exact whole_concat.mpr ⟨hs, fun b _ hb => (joinPair_decoded hpair.1.2 hpair.2).2 hb.2⟩
    · next hpair =>
      refine whole_concat.mpr ⟨h.whole, fun b hb hbc => hpair ?_⟩
      simp only [List.getLast?_concat, Option.mem_some_iff] at hb
      subst hb
      have hescaped : escaped = true := h.high a (by simp) hbc.1
      rw [hescaped, hbc.1, hbc.2]
      rfl

/-- A token that may end has a value. -/
theorem Part.value?_wf {part : Part} {token : Text} {v : Value} (h : part.value? token = some v)
    (htoken : token.foldlM Part.next .start = some part) : v.Wf := by
  cases part with
  | zero | digits => cases h; exact .int _
  | fraction | power => cases h; exact .float (by simp [isFloat, htoken])
  | _ => cases h

theorem constants_wf : ∀ p ∈ constants, p.2.Wf := by
  intro p hp
  simp only [constants, List.mem_cons, List.not_mem_nil, or_false] at hp
  rcases hp with rfl | rfl | rfl | rfl | rfl
  · exact .null
  · exact .bool _
  · exact .bool _
  · exact .float (by decide)
  · exact .float (by decide)

theorem Frame.wf_setItem {items : List (Text × Value)} {key : Text} {v : Value} (h : (Value.dict items).Wf)
    (hkey : Whole key) (hv : v.Wf) : (Value.dict (Py.setItem key v items)).Wf := by
  cases h with
  | dict hnodup hkeys h =>
    refine .dict (Py.nodup_setItem hnodup) (fun p hp => ?_) fun p hp => ?_
    · rcases Py.mem_of_mem_setItem hp with rfl | hp
      · exact hkey
      · exact hkeys p hp
    · rcases Py.mem_of_mem_setItem hp with rfl | hp
      · exact hv
      · exact h p hp

namespace Reader

variable {r r' : Reader}

theorem Wf.goto (h : r.Wf) (mode : Mode) (hmode : mode.Wf) (hr : r.goto mode = some r') : r'.Wf := by
  cases hr
  exact ⟨hmode, h.stack, h.root⟩

theorem Wf.put (h : r.Wf) {v : Value} (hv : v.Wf) (hr : r.put v = some r') : r'.Wf := by
  obtain ⟨mode, stack, root⟩ := r
  cases stack with
  | nil =>
    cases hr
    exact ⟨trivial, h.stack, fun w hw => Option.mem_some.mp hw ▸ hv⟩
  | cons f stack =>
    have htop : f.Wf := h.stack f (List.mem_cons_self ..)
    have hrest : ∀ g ∈ stack, g.Wf := fun g hg => h.stack g (List.mem_cons_of_mem _ hg)
    cases f with
    | list items =>
      cases hr
      refine ⟨trivial, List.forall_mem_cons.mpr ⟨?_, hrest⟩, h.root⟩
      intro w hw
      rcases List.mem_append.mp hw with hw | hw
      · exact htop w hw
      · exact List.mem_singleton.mp hw ▸ hv
    | key items => cases hr
    | value items key =>
      cases hr
      exact ⟨trivial, List.forall_mem_cons.mpr ⟨Frame.wf_setItem htop.1 htop.2 hv, hrest⟩, h.root⟩

theorem Wf.endString (h : r.Wf) {s : Text} (hs : Whole s) (hr : r.endString s = some r') : r'.Wf := by
  unfold Reader.endString at hr
  split at hr
  · next items stack hstack =>
    cases hr
    obtain ⟨htop, hrest⟩ := List.forall_mem_cons.mp (hstack ▸ h.stack)
    exact ⟨trivial, List.forall_mem_cons.mpr ⟨⟨htop, hs⟩, hrest⟩, h.root⟩
  · exact h.put (.str hs) hr

theorem Wf.close (h : r.Wf) {c : Code} (hr : r.close c = some r') : r'.Wf := by
  unfold Reader.close at hr
  split at hr
  · next items stack hstack =>
    obtain ⟨htop, hrest⟩ := List.forall_mem_cons.mp (hstack ▸ h.stack)
    have hpop : Reader.Wf { r with stack := stack } := ⟨h.mode, hrest, h.root⟩
    split at hr
    · exact hpop.put (.list htop) hr
    · cases hr
  · next items stack hstack =>
    obtain ⟨htop, hrest⟩ := List.forall_mem_cons.mp (hstack ▸ h.stack)
    have hpop : Reader.Wf { r with stack := stack } := ⟨h.mode, hrest, h.root⟩
    split at hr
    · exact hpop.put htop hr
    · cases hr
  · cases hr

theorem Wf.afterValue (h : r.Wf) {c : Code} (hr : r.afterValue c = some r') : r'.Wf := by
  unfold Reader.afterValue at hr
  split at hr
  · cases hr; exact h
  split at hr
  · split at hr
    · cases hr
    · exact h.goto .value trivial hr
  · exact h.close hr

theorem Wf.start (h : r.Wf) {c : Code} (hr : r.start c = some r') : r'.Wf := by
  have hpush : ∀ f : Frame, f.Wf → Reader.Wf ⟨.first, f :: r.stack, r.root⟩ := fun f hf =>
    ⟨trivial, List.forall_mem_cons.mpr ⟨hf, h.stack⟩, h.root⟩
  unfold Reader.start at hr
  split at hr
  · exact h.goto (.string [] false) Pending.nil hr
  split at hr
  · cases hr
  split at hr
  · cases hr
    exact hpush (.list []) fun v hv => absurd hv List.not_mem_nil
  split at hr
  · cases hr
    exact hpush (.key []) (.dict .nil (fun p hp => absurd hp List.not_mem_nil)
      fun p hp => absurd hp List.not_mem_nil)
  split at hr
  · next p hp => exact h.goto (.word p.1.tail p.2) (constants_wf p (List.mem_of_find?_eq_some hp)) hr
  · obtain ⟨part, hpart, hr⟩ := Option.bind_eq_some_iff.mp hr
    exact h.goto (.number part [c]) (by simp [Mode.Wf, hpart]) hr

theorem Wf.settle (h : r.Wf) (hr : r.settle = some r') : r'.Wf := by
  obtain ⟨mode, stack, root⟩ := r
  cases mode with
  | number part token =>
    obtain ⟨v, hv, hr⟩ := Option.bind_eq_some_iff.mp hr
    exact h.put (Part.value?_wf hv h.mode) hr
  | _ => cases hr; exact h

theorem escapes_decoded : ∀ p ∈ escapes, ¬ isHigh p.2 ∧ ¬ isLow p.2 := by
  intro p hp
  simp only [escapes, List.mem_cons, List.not_mem_nil, or_false] at hp
  rcases hp with rfl | rfl | rfl | rfl | rfl | rfl | rfl | rfl <;> decide

/-- A code point that was decoded keeps the reader well-formed. -/
theorem Wf.feed (h : r.Wf) {c : Code} (hc : ¬ isHigh c ∧ ¬ isLow c) (hr : r.feed c = some r') : r'.Wf := by
  obtain ⟨mode, stack, root⟩ := r
  have hmode : mode.Wf := h.mode
  unfold Reader.feed at hr
  cases mode with
  | value =>
    dsimp only at hr
    split at hr
    · cases hr; exact h
    · exact h.start hr
  | first =>
    dsimp only at hr
    split at hr
    · cases hr; exact h
    split at hr
    · exact h.close hr
    · exact h.start hr
  | colon =>
    dsimp only at hr
    split at hr
    · cases hr; exact h
    split at hr
    · exact h.goto .value trivial hr
    · cases hr
  | after => exact h.afterValue hr
  | string s escaped =>
    dsimp only at hr
    split at hr
    · exact h.endString hmode.whole hr
    split at hr
    · exact h.goto (.escape s escaped) hmode hr
    split at hr
    · cases hr
    · exact h.goto (.string (s ++ [c]) false) (Pending.concat hmode hc) hr
  | escape s escaped =>
    dsimp only at hr
    split at hr
    · exact h.goto (.unicode s escaped 0 0) hmode hr
    · obtain ⟨d, hd, hr⟩ := Option.bind_eq_some_iff.mp hr
      obtain ⟨l, l', heq, -⟩ := List.lookup_eq_some_iff.mp hd
      have hmem : (c, d) ∈ escapes := by rw [heq]; simp
      exact h.goto (.string (s ++ [d]) false) (Pending.concat hmode (escapes_decoded (c, d) hmem)) hr
  | unicode s escaped count n =>
    obtain ⟨d, -, hr⟩ := Option.bind_eq_some_iff.mp hr
    split at hr
    · exact h.goto (.string (addUnit s escaped (codeOf (16 * n + d))) true) (Pending.addUnit hmode) hr
    · exact h.goto (.unicode s escaped (count + 1) (16 * n + d)) hmode hr
  | number part token =>
    dsimp only at hr
    split at hr
    · next part' hpart =>
      refine h.goto (.number part' (token ++ [c])) ?_ hr
      have htoken : token.foldlM Part.next .start = some part := hmode
      simp [Mode.Wf, List.foldlM_append, htoken, hpart]
    split at hr
    · exact h.goto (.word (lit "nfinity") (.float (lit "-Infinity"))) (.float (by decide)) hr
    · obtain ⟨r₁, hr₁, hr⟩ := Option.bind_eq_some_iff.mp hr
      exact (h.settle hr₁).afterValue hr
  | word rest v =>
    dsimp only at hr
    split at hr
    · split at hr
      · exact h.put hmode hr
      · exact h.goto (.word rest.tail v) hmode hr
    · cases hr

theorem Wf.run (h : r.Wf) {s : Text} (hs : Decoded s) (hr : run r s = some r') : r'.Wf := by
  induction s generalizing r with
  | nil => cases hr; exact h
  | cons c s ih =>
    rw [run_cons] at hr
    obtain ⟨r₁, hr₁, hr⟩ := Option.bind_eq_some_iff.mp hr
    exact ih (h.feed (hs c (List.mem_cons_self ..)) hr₁) (fun d hd => hs d (List.mem_cons_of_mem _ hd)) hr

end Reader

/-- **What is read** from a decoded document has whole strings and no key twice. -/
theorem wf_of_read {s : Text} {v : Value} (hs : Decoded s) (h : read s = some v) : v.Wf := by
  obtain ⟨r, hr, hresult⟩ := Option.bind_eq_some_iff.mp h
  have hinit : Reader.Wf ⟨.value, [], none⟩ := ⟨trivial, by simp, by simp⟩
  obtain ⟨r', hr', hroot⟩ := Option.bind_eq_some_iff.mp hresult
  have hwf := (hinit.run hs hr).settle hr'
  split at hroot
  · exact hwf.root v hroot
  · cases hroot

end Json
