import SecureLedger.Lib.Py

/-!
# Lib.Xml — reading an XML 1.0 document

`read` takes a document's code points one by one and gives its root element, or nothing.  Every one
of them has to be a `Char` of XML, and line ends are normalized as they are read.  It knows elements,
character data, references and comments, and the one XML declaration `decl`; what it accepts is well
formed and has the content it returns.  Attributes, CDATA sections, processing instructions and
document types are refused.
-/

namespace Xml

open Py (Code Text code lit)

/-- Content: a character, or an element with its content. -/
inductive Node where
  | char (c : Code)
  | elem (name : Text) (children : List Node)

/-! ### Characters -/

/-- `Char`. -/
def isChar (c : Code) : Bool :=
  let n := c.val
  n = 0x9 || n = 0xA || n = 0xD || (0x20 ≤ n && n ≤ 0xD7FF) || (0xE000 ≤ n && n ≤ 0xFFFD) || 0x10000 ≤ n

/-- `S`. -/
def isSpace (c : Code) : Bool :=
  let n := c.val
  n = 0x20 || n = 0x9 || n = 0xD || n = 0xA

/-- `NameStartChar`. -/
def isNameStart (c : Code) : Bool :=
  let n := c.val
  n = 0x3A || (0x41 ≤ n && n ≤ 0x5A) || n = 0x5F || (0x61 ≤ n && n ≤ 0x7A) || (0xC0 ≤ n && n ≤ 0xD6) ||
    (0xD8 ≤ n && n ≤ 0xF6) || (0xF8 ≤ n && n ≤ 0x2FF) || (0x370 ≤ n && n ≤ 0x37D) ||
    (0x37F ≤ n && n ≤ 0x1FFF) || (0x200C ≤ n && n ≤ 0x200D) || (0x2070 ≤ n && n ≤ 0x218F) ||
    (0x2C00 ≤ n && n ≤ 0x2FEF) || (0x3001 ≤ n && n ≤ 0xD7FF) || (0xF900 ≤ n && n ≤ 0xFDCF) ||
    (0xFDF0 ≤ n && n ≤ 0xFFFD) || (0x10000 ≤ n && n ≤ 0xEFFFF)

/-- `NameChar`. -/
def isNameChar (c : Code) : Bool :=
  let n := c.val
  isNameStart c || n = 0x2D || n = 0x2E || (0x30 ≤ n && n ≤ 0x39) || n = 0xB7 ||
    (0x300 ≤ n && n ≤ 0x36F) || (0x203F ≤ n && n ≤ 0x2040)

/-- The value of a digit. -/
def digit? (base : ℕ) (c : Code) : Option ℕ :=
  let n := c.val
  if 0x30 ≤ n ∧ n ≤ 0x39 then some (n - 0x30)
  else if base = 16 ∧ 0x41 ≤ n ∧ n ≤ 0x46 then some (n - 0x41 + 10)
  else if base = 16 ∧ 0x61 ≤ n ∧ n ≤ 0x66 then some (n - 0x61 + 10)
  else none

/-- The character of a `CharRef`, given its digits. -/
def charRef (base : ℕ) (digits : Text) : Option Code := do
  if digits.isEmpty then none
  let n ← digits.foldlM (fun n c => (digit? base c).map (base * n + ·)) 0
  if h : n < 0x110000 then if isChar ⟨n, h⟩ then some ⟨n, h⟩ else none else none

/-- What `&name;` stands for. -/
def entity (name : Text) : Option Code :=
  if name = lit "lt" then some (code '<')
  else if name = lit "gt" then some (code '>')
  else if name = lit "amp" then some (code '&')
  else if name = lit "apos" then some ⟨0x27, by decide⟩
  else if name = lit "quot" then some ⟨0x22, by decide⟩
  else match name with
    | c :: x :: digits =>
      if c = code '#' then if x = code 'x' then charRef 16 digits else charRef 10 (x :: digits) else none
    | _ => none

/-! ### The reader -/

/-- Where the reader stands. -/
inductive Mode where
  /-- in content, after so many `]` -/
  | text (brackets : ℕ)
  /-- in a reference -/
  | ref (name : Text)
  /-- after `<` -/
  | markup
  /-- in the name of a start tag, in the blanks after it, after its `/` -/
  | start (name : Text)
  | startSpace (name : Text)
  | empty (name : Text)
  /-- in the name of an end tag, in the blanks after it -/
  | close (name : Text)
  | closeSpace (name : Text)
  /-- after `<!`, `<!-`, in a comment, after its `-`, after its `--` -/
  | bang
  | bangDash
  | comment
  | commentDash
  | commentEnd
  deriving DecidableEq

/-- The elements that are open, innermost first, each with its content so far. -/
abbrev Stack := List (Text × List Node)

structure Reader where
  mode : Mode
  /-- the last code point was a carriage return -/
  cr : Bool
  stack : Stack
  root : Option Node

/-- A node in the innermost open element, or at the top. -/
def add (x : Node) : Stack → Option Node → Stack × Option Node
  | [], _ => ([], some x)
  | (name, children) :: stack, root => ((name, children ++ [x]) :: stack, root)

namespace Reader

variable (r : Reader)

def goto (mode : Mode) : Option Reader := some { r with mode := mode }

/-- A node is complete. -/
def put (x : Node) : Option Reader :=
  let out := add x r.stack r.root
  some ⟨.text 0, r.cr, out.1, out.2⟩

def pushElem (name : Text) : Option Reader := some { r with mode := .text 0, stack := (name, []) :: r.stack }

/-- An end tag has to name the innermost open element. -/
def pop (name : Text) : Option Reader :=
  match r.stack with
  | [] => none
  | (name', children) :: stack =>
    if name' = name then { r with stack := stack }.put (.elem name children) else none

/-- A character of content. -/
def content (brackets : ℕ) (c : Code) : Option Reader :=
  if c = code '<' then r.goto .markup
  else match r.stack with
    | [] => if isSpace c then r.goto (.text 0) else none
    | (name, children) :: stack =>
      if c = code '&' then r.goto (.ref [])
      -- `]]>` may not stand in character data
      else if c = code '>' ∧ 2 ≤ brackets then none
      else some ⟨.text (if c = code ']' then brackets + 1 else 0), r.cr, (name, children ++ [.char c]) :: stack,
        r.root⟩

def step (c : Code) : Option Reader :=
  match r.mode with
  | .text brackets => r.content brackets c
  | .ref name =>
    if c = code ';' then (entity name).bind fun d => r.put (.char d) else r.goto (.ref (name ++ [c]))
  | .markup =>
    if c = code '/' then r.goto (.close [])
    else if c = code '!' then r.goto .bang
    -- one root element
    else if isNameStart c && (r.root.isNone || !r.stack.isEmpty) then r.goto (.start [c])
    else none
  | .start name =>
    if isNameChar c then r.goto (.start (name ++ [c]))
    else if c = code '>' then r.pushElem name
    else if c = code '/' then r.goto (.empty name)
    else if isSpace c then r.goto (.startSpace name)
    else none
  | .startSpace name =>
    if isSpace c then some r
    else if c = code '>' then r.pushElem name
    else if c = code '/' then r.goto (.empty name)
    else none
  | .empty name => if c = code '>' then r.put (.elem name []) else none
  | .close name =>
    if (if name.isEmpty then isNameStart c else isNameChar c) then r.goto (.close (name ++ [c]))
    else if c = code '>' then r.pop name
    else if isSpace c && !name.isEmpty then r.goto (.closeSpace name)
    else none
  | .closeSpace name =>
    if isSpace c then some r
    else if c = code '>' then r.pop name
    else none
  | .bang => if c = code '-' then r.goto .bangDash else none
  | .bangDash => if c = code '-' then r.goto .comment else none
  | .comment => if c = code '-' then r.goto .commentDash else some r
  | .commentDash => if c = code '-' then r.goto .commentEnd else r.goto .comment
  | .commentEnd => if c = code '>' then r.goto (.text 0) else none

/-- One code point: a line feed after a carriage return is dropped, and a carriage return read as a
line feed. -/
def feed (c : Code) : Option Reader :=
  if !isChar c then none
  else if c = code '\n' ∧ r.cr then some { r with cr := false }
  else { r with cr := c = code '\r' }.step (if c = code '\r' then code '\n' else c)

/-- The root element, once it is closed and nothing is begun after it. -/
def result : Option Node :=
  match r.mode, r.stack with
  | .text _, [] => r.root
  | _, _ => none

end Reader

/-- Read on. -/
def run (r : Reader) (text : Text) : Option Reader := text.foldlM Reader.feed r

/-- The XML declaration. -/
def decl : Text := lit "<?xml version=\"1.0\" encoding=\"UTF-8\"?>"

/-- The root element of a document. -/
def read (text : Text) : Option Node :=
  let body := if decl.isPrefixOf text then text.drop decl.length else text
  (run ⟨.text 0, false, [], none⟩ body).bind Reader.result

/-! ### What is read is made of characters -/

variable {r r' : Reader} {s t : Text}

theorem run_append : run r (s ++ t) = (run r s).bind fun r => run r t := List.foldlM_append

theorem run_cons {c : Code} : run r (c :: s) = (r.feed c).bind fun r => run r s := rfl

theorem isChar_of_run (h : run r s = some r') : ∀ c ∈ s, isChar c := by
  induction s generalizing r with
  | nil => simp
  | cons c s ih =>
    rw [run_cons] at h
    obtain ⟨r₁, h₁, h⟩ := Option.bind_eq_some_iff.mp h
    have hc : isChar c := by
      unfold Reader.feed at h₁
      by_contra hc
      simp [hc] at h₁
    intro d hd
    rcases List.mem_cons.mp hd with rfl | hd
    · exact hc
    · exact ih h d hd

/-- A document with a code point that is no character is not read. -/
theorem isChar_of_read {x : Node} (h : read s = some x) : ∀ c ∈ s, isChar c := by
  unfold read at h
  dsimp only at h
  obtain ⟨r, hr, -⟩ := Option.bind_eq_some_iff.mp h
  have hbody := isChar_of_run hr
  split at hbody
  · next hdecl =>
    obtain ⟨t, rfl⟩ := List.isPrefixOf_iff_prefix.mp hdecl
    rw [List.drop_left' rfl] at hbody
    intro c hc
    rcases List.mem_append.mp hc with hc | hc
    · have hall : decl.all isChar := by decide
      exact List.all_eq_true.mp hall c hc
    · exact hbody c hc
  · exact hbody

/-! ### Pieces of a document -/

/-- `body` leads from content at `p` to content at `q`: the open elements and the root so far. -/
def Leads (body : Text) (p q : Stack × Option Node) : Prop :=
  ∀ k, ∃ k', run ⟨.text k, false, p.1, p.2⟩ body = some ⟨.text k', false, q.1, q.2⟩

theorem Leads.nil {p : Stack × Option Node} : Leads [] p p := fun k => ⟨k, rfl⟩

theorem Leads.trans {p q q' : Stack × Option Node} (h : Leads s p q) (h' : Leads t q q') :
    Leads (s ++ t) p q' := by
  intro k
  obtain ⟨k₁, h₁⟩ := h k
  obtain ⟨k₂, h₂⟩ := h' k₁
  exact ⟨k₂, by rw [run_append, h₁]; exact h₂⟩

/-- `Name`. -/
def isName : Text → Bool
  | [] => false
  | c :: s => isNameStart c && s.all isNameChar

theorem feed_eq {c : Code} (hc : isChar c) (hr : c ≠ code '\r') (hn : c ≠ code '\n') :
    r.feed c = { r with cr := false }.step c := by
  unfold Reader.feed
  simp [hc, hr, hn]

theorem isNameChar_of_start {c : Code} (h : isNameStart c) : isNameChar c := by
  simp [isNameChar, h]

/-- What a character of a name is not. -/
theorem nameChar_ne {c : Code} (h : isNameChar c) : isChar c ∧ c ≠ code '\r' ∧ c ≠ code '\n' ∧
    c ≠ code '<' ∧ c ≠ code '>' ∧ c ≠ code '/' ∧ c ≠ code '!' := by
  have hlt := c.isLt
  simp only [isNameChar, isNameStart, isChar, Bool.or_eq_true, Bool.and_eq_true, decide_eq_true_eq,
    Ne, Fin.ext_iff] at h ⊢
  have hcodes : (code '\r').val = 13 ∧ (code '\n').val = 10 ∧ (code '<').val = 60 ∧ (code '>').val = 62 ∧
      (code '/').val = 47 ∧ (code '!').val = 33 := by decide
  omega

def openTag (name : Text) : Text := code '<' :: name ++ [code '>']

def closeTag (name : Text) : Text := code '<' :: code '/' :: name ++ [code '>']

def emptyTag (name : Text) : Text := code '<' :: name ++ [code '/', code '>']

variable {name : Text} {k : ℕ} {b : Bool} {stack : Stack} {root : Option Node}

/-- The rest of a name, in a tag that has begun. -/
theorem run_name {mode : Text → Mode} (hmode : mode = .start ∨ mode = .close) : ∀ {s acc : Text}, acc ≠ [] →
    s.all isNameChar →
      run ⟨mode acc, false, stack, root⟩ s = some ⟨mode (acc ++ s), false, stack, root⟩
  | [], acc, _, _ => by rw [List.append_nil]; rfl
  | c :: s, acc, hacc, h => by
    rw [List.all_cons, Bool.and_eq_true] at h
    obtain ⟨hc, hr, hn, -⟩ := nameChar_ne h.1
    have hstep : Reader.feed ⟨mode acc, false, stack, root⟩ c =
        some ⟨mode (acc ++ [c]), false, stack, root⟩ := by
      rw [feed_eq hc hr hn]
      rcases hmode with rfl | rfl
      · simp [Reader.step, Reader.goto, h.1]
      · simp [Reader.step, Reader.goto, h.1, hacc]
    have hne : acc ++ [c] ≠ [] := List.append_ne_nil_of_right_ne_nil _ (List.cons_ne_nil _ _)
    rw [run_cons, hstep, Option.bind_some, run_name hmode hne h.2, List.append_assoc]
    rfl

/-- After the name of a start tag. -/
theorem run_startName (hname : isName name) (hroot : root = none ∨ stack ≠ []) :
    run ⟨.text k, b, stack, root⟩ (code '<' :: name) = some ⟨.start name, false, stack, root⟩ := by
  cases name with
  | nil => cases hname
  | cons c s =>
    rw [isName, Bool.and_eq_true] at hname
    obtain ⟨hc, hr, hn, hlt, hgt, hslash, hbang⟩ := nameChar_ne (isNameChar_of_start hname.1)
    have hopen : (root.isNone || !stack.isEmpty) = true := by
      rcases hroot with rfl | h
      · rfl
      · simp [h]
    have hmarkup : Reader.feed ⟨.text k, b, stack, root⟩ (code '<') =
        some ⟨.markup, false, stack, root⟩ := by
      rw [feed_eq (by decide) (by decide) (by decide)]
      rfl
    have hstep : Reader.feed ⟨.markup, false, stack, root⟩ c = some ⟨.start [c], false, stack, root⟩ := by
      rw [feed_eq hc hr hn]
      simp only [Reader.step, Reader.goto, if_neg hslash, if_neg hbang, hname.1, Bool.true_and, hopen,
        if_true]
    rw [run_cons, hmarkup, Option.bind_some, run_cons, hstep, Option.bind_some,
      run_name (.inl rfl) (List.cons_ne_nil _ _) hname.2]
    rfl

theorem feed_gt (mode : Mode) : Reader.feed ⟨mode, false, stack, root⟩ (code '>') =
    Reader.step ⟨mode, false, stack, root⟩ (code '>') := feed_eq (by decide) (by decide) (by decide)

theorem run_openTag (hname : isName name) (hroot : root = none ∨ stack ≠ []) :
    run ⟨.text k, b, stack, root⟩ (openTag name) = some ⟨.text 0, false, (name, []) :: stack, root⟩ := by
  have hgt : isNameChar (code '>') = false := by decide
  unfold openTag
  rw [run_append, run_startName hname hroot, Option.bind_some, run_cons, feed_gt]
  simp only [Reader.step, hgt]
  rfl

theorem run_emptyTag (hname : isName name) (hroot : root = none ∨ stack ≠ []) :
    run ⟨.text k, b, stack, root⟩ (emptyTag name) =
      some ⟨.text 0, false, (add (.elem name []) stack root).1, (add (.elem name []) stack root).2⟩ := by
  have hslash : isNameChar (code '/') = false := by decide
  unfold emptyTag
  rw [run_append, run_startName hname hroot, Option.bind_some, run_cons,
    feed_eq (by decide) (by decide) (by decide)]
  simp only [Reader.step, hslash]
  rfl

theorem run_closeTag (hname : isName name) {children : List Node} :
    run ⟨.text k, b, (name, children) :: stack, root⟩ (closeTag name) =
      some ⟨.text 0, false, (add (.elem name children) stack root).1,
        (add (.elem name children) stack root).2⟩ := by
  have hgt : isNameChar (code '>') = false := by decide
  cases name with
  | nil => cases hname
  | cons c s =>
    rw [isName, Bool.and_eq_true] at hname
    obtain ⟨hc, hr, hn, -⟩ := nameChar_ne (isNameChar_of_start hname.1)
    have hslash : run ⟨.text k, b, (c :: s, children) :: stack, root⟩ [code '<', code '/'] =
        some ⟨.close [], false, (c :: s, children) :: stack, root⟩ := by
      rw [run_cons, feed_eq (by decide) (by decide) (by decide)]
      rfl
    have hstep : Reader.feed ⟨.close [], false, (c :: s, children) :: stack, root⟩ c =
        some ⟨.close [c], false, (c :: s, children) :: stack, root⟩ := by
      rw [feed_eq hc hr hn]
      simp [Reader.step, Reader.goto, hname.1]
    show run _ ([code '<', code '/'] ++ (c :: (s ++ [code '>']))) = _
    rw [run_append, hslash, Option.bind_some, run_cons, hstep, Option.bind_some, run_append,
      run_name (.inr rfl) (List.cons_ne_nil _ _) hname.2, Option.bind_some, run_cons, feed_gt]
    simp [Reader.step, hgt, Reader.pop, Reader.put]
    rfl

/-! ### Escaped text -/

/-- The three characters that markup is made of, as references. -/
def escapeCode (c : Code) : Text :=
  if c = code '&' then lit "&amp;" else if c = code '<' then lit "&lt;"
  else if c = code '>' then lit "&gt;" else [c]

def escape (s : Text) : Text := s.flatMap escapeCode

/-- Line ends as they are read, given whether a carriage return came before. -/
def normalize : Bool → Text → Text
  | _, [] => []
  | cr, c :: s =>
    if c = code '\n' ∧ cr then normalize false s
    else (if c = code '\r' then code '\n' else c) :: normalize (c = code '\r') s

theorem mem_normalize {c : Code} (h : c ∈ normalize b s) : c ≠ code '\r' := by
  induction s generalizing b with
  | nil => cases h
  | cons d s ih =>
    unfold normalize at h
    split at h
    · exact ih h
    · rcases List.mem_cons.mp h with rfl | h
      · split
        · decide
        · assumption
      · exact ih h

/-- Text without carriage returns is read as it is. -/
theorem normalize_eq_self : normalize false s = s ↔ code '\r' ∉ s := by
  constructor
  · intro h hmem
    exact mem_normalize (b := false) (s := s) (h.symm ▸ hmem) rfl
  · intro h
    induction s with
    | nil => rfl
    | cons c s ih =>
      rw [List.mem_cons, not_or] at h
      have hc : c ≠ code '\r' := fun hc => h.1 hc.symm
      simp only [normalize, hc, Bool.false_eq_true, and_false, if_false, decide_false, ih h.2]

theorem mem_escape {c : Code} (hc : c ∈ s) (hne : c ≠ code '&' ∧ c ≠ code '<' ∧ c ≠ code '>') :
    c ∈ escape s :=
  List.mem_flatMap.mpr ⟨c, hc, by simp [escapeCode, hne]⟩

/-- A text is made of characters if its escaped form is. -/
theorem isChar_of_escape (h : ∀ c ∈ escape s, isChar c) : ∀ c ∈ s, isChar c := by
  intro c hc
  by_cases hamp : c = code '&'
  · rw [hamp]; decide
  by_cases hlt : c = code '<'
  · rw [hlt]; decide
  by_cases hgt : c = code '>'
  · rw [hgt]; decide
  exact h c (mem_escape hc ⟨hamp, hlt, hgt⟩)

variable {children : List Node}

/-- One escaped character. -/
theorem run_escapeCode {c : Code} (hc : isChar c) : ∃ k', run ⟨.text k, b, (name, children) :: stack, root⟩
    (escapeCode c) = some ⟨.text k', c = code '\r', (name, children ++ (if c = code '\n' ∧ b then []
      else [.char (if c = code '\r' then code '\n' else c)])) :: stack, root⟩ := by
  unfold escapeCode
  by_cases hamp : c = code '&'
  · subst hamp
    exact ⟨0, rfl⟩
  by_cases hlt : c = code '<'
  · subst hlt
    exact ⟨0, rfl⟩
  by_cases hgt : c = code '>'
  · subst hgt
    exact ⟨0, rfl⟩
  rw [if_neg hamp, if_neg hlt, if_neg hgt, run_cons]
  unfold Reader.feed
  simp only [hc, Bool.not_true, Bool.false_eq_true, if_false]
  by_cases hdrop : c = code '\n' ∧ b
  · obtain ⟨rfl, rfl⟩ := hdrop
    rw [if_pos ⟨rfl, rfl⟩, if_pos ⟨rfl, rfl⟩, List.append_nil]
    exact ⟨k, rfl⟩
  · rw [if_neg hdrop, if_neg hdrop]
    by_cases hcr : c = code '\r'
    · subst hcr
      exact ⟨0, rfl⟩
    · simp only [hcr, if_false, decide_false, Reader.step, Reader.content, hlt, hamp, hgt, false_and]
      exact ⟨_, rfl⟩

theorem run_escape : ∀ {s : Text} {k : ℕ} {b : Bool} {children : List Node}, (∀ c ∈ s, isChar c) →
    ∃ k' b', run ⟨.text k, b, (name, children) :: stack, root⟩ (escape s) =
      some ⟨.text k', b', (name, children ++ (normalize b s).map .char) :: stack, root⟩
  | [], k, b, children, _ => ⟨k, b, by rw [normalize, List.map_nil, List.append_nil]; rfl⟩
  | c :: s, k, b, children, h => by
    obtain ⟨k₁, h₁⟩ := @run_escapeCode name k b stack root children c (h c (List.mem_cons_self ..))
    obtain ⟨k', b', h'⟩ := @run_escape s k₁ (c = code '\r') (children ++ (if c = code '\n' ∧ b then []
      else [.char (if c = code '\r' then code '\n' else c)])) fun d hd => h d (List.mem_cons_of_mem _ hd)
    refine ⟨k', b', ?_⟩
    show run _ (escapeCode c ++ escape s) = _
    rw [run_append, h₁, Option.bind_some, h', normalize, List.append_assoc]
    by_cases hdrop : c = code '\n' ∧ b
    · obtain ⟨rfl, rfl⟩ := hdrop
      rw [if_pos ⟨rfl, rfl⟩, if_pos ⟨rfl, rfl⟩]
      rfl
    · rw [if_neg hdrop, if_neg hdrop]
      rfl

/-! ### Content -/

/-- `body` adds the nodes `xs` to whatever element is open. -/
def Adds (body : Text) (xs : List Node) : Prop :=
  ∀ name children stack root,
    Leads body ((name, children) :: stack, root) ((name, children ++ xs) :: stack, root)

variable {xs ys : List Node}

theorem Adds.nil : Adds [] [] := fun name children stack root => by
  rw [List.append_nil]
  exact .nil

theorem Adds.append (h : Adds s xs) (h' : Adds t ys) : Adds (s ++ t) (xs ++ ys) := by
  intro name children stack root
  rw [← List.append_assoc]
  exact (h name children stack root).trans (h' name (children ++ xs) stack root)

theorem Adds.flatMap {α : Type} {f : α → Text} {g : α → List Node} {l : List α}
    (h : ∀ a ∈ l, Adds (f a) (g a)) : Adds (l.flatMap f) (l.flatMap g) := by
  induction l with
  | nil => exact .nil
  | cons a l ih =>
    rw [List.flatMap_cons, List.flatMap_cons]
    exact (h a (List.mem_cons_self ..)).append (ih fun a ha => h a (List.mem_cons_of_mem _ ha))

/-- A line break. -/
theorem Adds.newline : Adds (lit "\n") [.char (code '\n')] := fun _ _ _ _ _ => ⟨0, rfl⟩

/-- An element around content. -/
theorem Leads.element (hname : isName name) (hroot : root = none ∨ stack ≠ []) (h : Adds s xs) :
    Leads (openTag name ++ s ++ closeTag name) (stack, root) (add (.elem name xs) stack root) := by
  have hopen : Leads (openTag name) (stack, root) ((name, []) :: stack, root) :=
    fun _ => ⟨0, run_openTag hname hroot⟩
  have hclose : Leads (closeTag name) ((name, [] ++ xs) :: stack, root) (add (.elem name xs) stack root) :=
    fun _ => ⟨0, run_closeTag hname⟩
  exact (hopen.trans (h name [] stack root)).trans hclose

theorem Adds.element (hname : isName name) (h : Adds s xs) :
    Adds (openTag name ++ s ++ closeTag name) [.elem name xs] :=
  fun _ _ _ _ => .element hname (.inr (List.cons_ne_nil _ _)) h

theorem Adds.empty (hname : isName name) : Adds (emptyTag name) [.elem name []] :=
  fun _ _ _ _ _ => ⟨0, run_emptyTag hname (.inr (List.cons_ne_nil _ _))⟩

/-- **An element with escaped text** is read as that text, up to line ends. -/
theorem Adds.textElement (hname : isName name) (hs : ∀ c ∈ s, isChar c) :
    Adds (openTag name ++ escape s ++ closeTag name) [.elem name ((normalize false s).map .char)] := by
  intro outer children stack root k
  have hstack : (outer, children) :: stack ≠ [] := List.cons_ne_nil _ _
  obtain ⟨k', b', htext⟩ := @run_escape name ((outer, children) :: stack) root s 0 false [] hs
  refine ⟨0, ?_⟩
  rw [run_append, run_append, run_openTag hname (.inr hstack), Option.bind_some, htext, Option.bind_some,
    List.nil_append, run_closeTag hname]
  rfl

/-- **A document** is read as its root element: `before` is what stands between the declaration and
the root. -/
theorem read_document {before : Text} (hbefore : Leads before ([], none) ([], none)) (hname : isName name)
    (h : Adds s xs) :
    read (decl ++ (before ++ (openTag name ++ s ++ closeTag name))) = some (.elem name xs) := by
  obtain ⟨k, hrun⟩ := (hbefore.trans (Leads.element hname (.inl rfl) h)) 0
  unfold read
  dsimp only
  rw [if_pos (List.isPrefixOf_iff_prefix.mpr (List.prefix_append _ _)), List.drop_left' rfl, hrun]
  rfl

/-! ### Looking into content -/

/-- The character data. -/
def textOf (content : List Node) : Text :=
  content.filterMap fun
    | .char c => some c
    | .elem _ _ => none

/-- The contents of the elements of a name. -/
def childrenOf (name : Text) (content : List Node) : List (List Node) :=
  content.filterMap fun
    | .char _ => none
    | .elem name' children => if name' = name then some children else none

@[simp] theorem textOf_chars : textOf (s.map .char) = s := by
  simp only [textOf, List.filterMap_map]
  exact List.filterMap_some

@[simp] theorem childrenOf_append : childrenOf name (xs ++ ys) = childrenOf name xs ++ childrenOf name ys :=
  List.filterMap_append

@[simp] theorem childrenOf_nil : childrenOf name [] = [] := rfl

@[simp] theorem childrenOf_char {c : Code} : childrenOf name (.char c :: xs) = childrenOf name xs := rfl

@[simp] theorem childrenOf_elem {name' : Text} : childrenOf name (.elem name' xs :: ys) =
    if name' = name then xs :: childrenOf name ys else childrenOf name ys := by
  unfold childrenOf
  by_cases h : name' = name <;> simp [h]

theorem childrenOf_flatMap {α : Type} {f : α → List Node} {l : List α} :
    childrenOf name (l.flatMap f) = l.flatMap fun a => childrenOf name (f a) := by
  induction l with
  | nil => rfl
  | cons a l ih => rw [List.flatMap_cons, childrenOf_append, ih, List.flatMap_cons]

end Xml
