import Xinu.Names
import Xinu.Tty

/-!
# The lexer of the shell

`lexan` divides a line into tokens, which it stores one after the other. A line is the list of its
characters; the one behind the last is null.
-/

namespace Xinu

open Memory

/-! ## lexan.c -/

def SHELL_BUFLEN : Nat := (TY_IBUFLEN + 1).toNat
def SHELL_MAXTOK : Nat := 32

def NULLCH : Nat := 0
def SH_NEWLINE : Nat := 10
def SH_AMPER : Nat := 38
def SH_BLANK : Nat := 32
def SH_TAB : Nat := 9
def SH_SQUOTE : Nat := 39
def SH_DQUOTE : Nat := 34
def SH_LESS : Nat := 60
def SH_GREATER : Nat := 62

def SH_TOK_AMPER : Nat := 0
def SH_TOK_LESS : Nat := 1
def SH_TOK_GREATER : Nat := 2
def SH_TOK_OTHER : Nat := 3

/-- What `lexan` has stored, and its two indices. -/
structure Lex where
  ntok : Nat
  tbindex : Nat
  tokbuf : Chars
  tok : Nat → Nat
  toktyp : Nat → Nat

/-- The result, and `*tlen` when it has been stored. -/
structure LexResult where
  ret : Int
  tlen : Option Nat
  lex : Lex

/-- `*p`. -/
def charAt (p : List Nat) : Nat := p.headD NULLCH

def LineEnds (p : List Nat) : Prop := charAt p = NULLCH ∨ charAt p = SH_NEWLINE

instance (p : List Nat) : Decidable (LineEnds p) := inferInstanceAs (Decidable (_ ∨ _))

def skipBlanks : List Nat → List Nat
  | [] => []
  | ch :: p => if ch = SH_BLANK ∨ ch = SH_TAB then skipBlanks p else ch :: p

/-- The characters that satisfy `cond` are copied to `tokbuf`. -/
def copyWhile (cond : Nat → Bool) : List Nat → Nat → Chars → List Nat × Nat × Chars
  | [], tbindex, tokbuf => ([], tbindex, tokbuf)
  | ch :: p, tbindex, tokbuf =>
      if cond ch then copyWhile cond p (tbindex + 1) (Function.update tokbuf tbindex ch)
      else (ch :: p, tbindex, tokbuf)

def quotedChar (quote ch : Nat) : Bool := ch ≠ quote ∧ ch ≠ SH_NEWLINE ∧ ch ≠ NULLCH

def wordChar (ch : Nat) : Bool :=
  ch ≠ SH_NEWLINE ∧ ch ≠ NULLCH ∧ ch ≠ SH_LESS ∧ ch ≠ SH_GREATER ∧ ch ≠ SH_BLANK ∧ ch ≠ SH_TAB ∧
    ch ≠ SH_AMPER ∧ ch ≠ SH_SQUOTE ∧ ch ≠ SH_DQUOTE

/-- A null at the end of the text in `tokbuf`, and one token more. -/
def Lex.terminate (st : Lex) : Lex :=
  { st with
    tokbuf := Function.update st.tokbuf st.tbindex NULLCH
    tbindex := st.tbindex + 1
    ntok := st.ntok + 1 }

/-- The type of the token, and its one character. -/
def Lex.special (st : Lex) (typ ch : Nat) : Lex :=
  { st with
    toktyp := Function.update st.toktyp st.ntok typ
    tokbuf := Function.update st.tokbuf st.tbindex ch
    tbindex := st.tbindex + 1 }.terminate

/-- The loop with `n` tokens left, so that `ntok` is `SHELL_MAXTOK` when `n` is 0. -/
def lexanLoop : Nat → List Nat → Lex → LexResult
  | 0, p, st => if LineEnds p then ⟨st.ntok, some st.tbindex, st⟩ else ⟨SYSERR, none, st⟩
  | n + 1, p, st =>
      if LineEnds p then ⟨st.ntok, some st.tbindex, st⟩
      else
        let p := skipBlanks p
        let ch := charAt p
        if ch = SH_NEWLINE ∨ ch = NULLCH then ⟨st.ntok, some st.tbindex, st⟩
        else
          let st := { st with tok := Function.update st.tok st.ntok st.tbindex }
          if ch = SH_AMPER then lexanLoop n p.tail (st.special SH_TOK_AMPER ch)
          else if ch = SH_LESS then lexanLoop n p.tail (st.special SH_TOK_LESS ch)
          else if ch = SH_GREATER then lexanLoop n p.tail (st.special SH_TOK_GREATER ch)
          else
            let st := { st with toktyp := Function.update st.toktyp st.ntok SH_TOK_OTHER }
            if ch = SH_SQUOTE ∨ ch = SH_DQUOTE then
              let (p, tbindex, tokbuf) := copyWhile (quotedChar ch) p.tail st.tbindex st.tokbuf
              let st := { st with tbindex := tbindex, tokbuf := tokbuf }
              if charAt p ≠ ch then ⟨SYSERR, none, st⟩
              else lexanLoop n p.tail st.terminate
            else
              let (p, tbindex, tokbuf) := copyWhile wordChar p.tail (st.tbindex + 1)
                (Function.update st.tokbuf st.tbindex ch)
              let st := { st with tbindex := tbindex, tokbuf := tokbuf }
              let ch := charAt p
              if ch = SH_SQUOTE ∨ ch = SH_DQUOTE ∨ ch = SH_LESS ∨ ch = SH_GREATER then
                ⟨SYSERR, none, st⟩
              else lexanLoop n p st.terminate

def lexan (line : List Nat) (tokbuf : Chars) (tok toktyp : Nat → Nat) : LexResult :=
  lexanLoop SHELL_MAXTOK line ⟨0, 0, tokbuf, tok, toktyp⟩

/-! ## Tokens -/

inductive Token where
  | amper
  | less
  | greater
  /-- A word or a quoted string, without its quotes. -/
  | other (s : List Nat)

namespace Token

def kind : Token → Nat
  | .amper => SH_TOK_AMPER
  | .less => SH_TOK_LESS
  | .greater => SH_TOK_GREATER
  | .other _ => SH_TOK_OTHER

def text : Token → List Nat
  | .amper => [SH_AMPER]
  | .less => [SH_LESS]
  | .greater => [SH_GREATER]
  | .other s => s

end Token

def IsQuote (ch : Nat) : Prop := ch = SH_SQUOTE ∨ ch = SH_DQUOTE

/-- What may not follow a word directly. -/
def Appended (ch : Nat) : Prop := ch = SH_SQUOTE ∨ ch = SH_DQUOTE ∨ ch = SH_LESS ∨ ch = SH_GREATER

/-- The line begins with the token, and the rest follows it. A word goes as far as it can. -/
inductive Begins : Token → List Nat → List Nat → Prop
  | amper {r : List Nat} : Begins .amper (SH_AMPER :: r) r
  | less {r : List Nat} : Begins .less (SH_LESS :: r) r
  | greater {r : List Nat} : Begins .greater (SH_GREATER :: r) r
  | quoted {q : Nat} {s r : List Nat} : IsQuote q → (∀ c ∈ s, quotedChar q c) →
      Begins (.other s) (q :: (s ++ q :: r)) r
  | word {s r : List Nat} : s ≠ [] → (∀ c ∈ s, wordChar c) → ¬ wordChar (charAt r) →
      ¬ Appended (charAt r) → Begins (.other s) (s ++ r) r

/-- A quote that is not closed on the line. -/
inductive Unclosed : List Nat → Prop
  | intro {q : Nat} {s r : List Nat} : IsQuote q → (∀ c ∈ s, quotedChar q c) → LineEnds r →
      Unclosed (q :: (s ++ r))

/-- A word with a quote or a redirection sign directly behind it. -/
inductive Joined : List Nat → Prop
  | intro {s r : List Nat} : s ≠ [] → (∀ c ∈ s, wordChar c) → Appended (charAt r) → Joined (s ++ r)

/-- The line begins with the tokens, and the rest follows the last one. -/
inductive Reads : List Nat → List Token → List Nat → Prop
  | nil {p : List Nat} : Reads p [] p
  | cons {p r r' : List Nat} {t : Token} {ts : List Token} : Begins t (skipBlanks p) r →
      Reads r ts r' → Reads p (t :: ts) r'

/-- The tokens of the line. -/
def Tokens (line : List Nat) (ts : List Token) : Prop :=
  ∃ rest, Reads line ts rest ∧ LineEnds (skipBlanks rest)

/-- A quote is not closed, a word is directly followed by a quote or a redirection sign, or a
character is left behind `n` tokens. -/
def Rejected (n : Nat) (line : List Nat) : Prop :=
  ∃ ts rest, Reads line ts rest ∧
    (Unclosed (skipBlanks rest) ∨ Joined (skipBlanks rest) ∨ ts.length = n ∧ ¬ LineEnds rest)

/-! ## The next token -/

variable {p r s line : List Nat} {ts : List Token} {t : Token} {cond : Nat → Bool} {n : Nat}

theorem copyWhile_eq (cond : Nat → Bool) (p : List Nat) (i : Nat) (tokbuf : Chars) :
    copyWhile cond p i tokbuf = (p.dropWhile cond, i + (p.takeWhile cond).length,
      store tokbuf i (p.takeWhile cond)) := by
  induction p generalizing i tokbuf with
  | nil => rfl
  | cons ch p ih =>
    rw [copyWhile, List.dropWhile_cons, List.takeWhile_cons]
    cases cond ch with
    | true =>
      simp only [if_true]
      rw [ih, List.length_cons, store, Nat.add_assoc, Nat.add_comm 1]
    | false => rfl

/-- What stops a copy does not satisfy its condition. -/
theorem charAt_dropWhile (hnull : cond NULLCH = false) (p : List Nat) :
    cond (charAt (p.dropWhile cond)) = false := by
  induction p with
  | nil => exact hnull
  | cons ch p ih =>
    rw [List.dropWhile_cons]
    cases hch : cond ch with
    | true => exact ih
    | false => exact hch

/-- A copy of all characters that satisfy its condition. -/
theorem dropWhile_of_stop (hs : ∀ c ∈ s, cond c) (hstop : cond (charAt r) = false) :
    (s ++ r).dropWhile cond = r ∧ (s ++ r).takeWhile cond = s := by
  have hr : r.dropWhile cond = r ∧ r.takeWhile cond = [] := by
    cases r with
    | nil => exact ⟨rfl, rfl⟩
    | cons ch r =>
      have hch : cond ch = false := hstop
      rw [List.dropWhile_cons, List.takeWhile_cons, hch]
      exact ⟨rfl, rfl⟩
  rw [List.dropWhile_append_of_pos hs, List.takeWhile_append_of_pos hs, hr.1, hr.2, List.append_nil]
  exact ⟨rfl, rfl⟩

theorem quotedChar_null (q : Nat) : quotedChar q NULLCH = false := by
  simp [quotedChar]

theorem wordChar_null : wordChar NULLCH = false := by decide

instance (ch : Nat) : Decidable (IsQuote ch) := inferInstanceAs (Decidable (_ ∨ _))

instance (ch : Nat) : Decidable (Appended ch) := inferInstanceAs (Decidable (_ ∨ _))

/-- What comes next on a line, behind blanks. -/
inductive Next where
  | ended
  /-- A text that is no token. -/
  | failed (s : List Nat)
  | token (t : Token) (r : List Nat)

def next (p : List Nat) : Next :=
  if LineEnds p then .ended
  else if charAt p = SH_AMPER then .token .amper p.tail
  else if charAt p = SH_LESS then .token .less p.tail
  else if charAt p = SH_GREATER then .token .greater p.tail
  else if IsQuote (charAt p) then
    let r := p.tail.dropWhile (quotedChar (charAt p))
    let s := p.tail.takeWhile (quotedChar (charAt p))
    if charAt r = charAt p then .token (.other s) r.tail else .failed s
  else
    let r := p.dropWhile wordChar
    let s := p.takeWhile wordChar
    if Appended (charAt r) then .failed s else .token (.other s) r

theorem next_ended (h : LineEnds p) : next p = .ended := if_pos h

/-- A quote begins neither an empty line nor a token of one character. -/
theorem next_quote {q : Nat} (hq : IsQuote q) (p : List Nat) : next (q :: p) =
    if charAt (p.dropWhile (quotedChar q)) = q then
      .token (.other (p.takeWhile (quotedChar q))) (p.dropWhile (quotedChar q)).tail
    else .failed (p.takeWhile (quotedChar q)) := by
  rcases hq with rfl | rfl
  · rfl
  · rfl

theorem next_word {c : Nat} (hc : wordChar c) (p : List Nat) : next (c :: p) =
    if Appended (charAt ((c :: p).dropWhile wordChar)) then .failed ((c :: p).takeWhile wordChar)
    else .token (.other ((c :: p).takeWhile wordChar)) ((c :: p).dropWhile wordChar) := by
  simp only [wordChar, decide_eq_true_eq] at hc
  obtain ⟨hnl, hnull, hless, hgreater, -, -, hamper, hsquote, hdquote⟩ := hc
  have hline : ¬ LineEnds (c :: p) := fun h => h.elim hnull hnl
  have hquote : ¬ IsQuote (charAt (c :: p)) := fun h => h.elim hsquote hdquote
  have hhead : charAt (c :: p) = c := rfl
  unfold next
  rw [if_neg hline, if_neg (hhead ▸ hamper), if_neg (hhead ▸ hless), if_neg (hhead ▸ hgreater),
    if_neg hquote]

theorem next_begins (h : Begins t p r) : next p = .token t r := by
  cases h with
  | amper => rfl
  | less => rfl
  | greater => rfl
  | @quoted q s r hq hs =>
    have hstop : quotedChar q (charAt (q :: r)) = false := by simp [quotedChar, charAt]
    obtain ⟨hdrop, htake⟩ := dropWhile_of_stop hs hstop
    rw [next_quote hq, hdrop, htake]
    exact if_pos rfl
  | @word s r hne hs hstop happ =>
    obtain ⟨hdrop, htake⟩ := dropWhile_of_stop hs (Bool.not_eq_true _ ▸ hstop)
    cases s with
    | nil => exact absurd rfl hne
    | cons c s =>
      rw [List.cons_append] at hdrop htake ⊢
      rw [next_word (hs c (by simp)), hdrop, htake]
      exact if_neg happ

theorem next_unclosed (h : Unclosed p) : ∃ s, next p = .failed s := by
  obtain ⟨hq, hs, hend⟩ := h
  rename_i q s r
  have hstop : quotedChar q (charAt r) = false := by
    rcases hend with h | h
    · simp [quotedChar, h]
    · simp [quotedChar, h]
  have hne : charAt r ≠ q := by
    rcases hq with rfl | rfl <;> rcases hend with h | h <;> rw [h] <;> decide
  obtain ⟨hdrop, -⟩ := dropWhile_of_stop hs hstop
  rw [next_quote hq, hdrop, if_neg hne]
  exact ⟨_, rfl⟩

theorem next_joined (h : Joined p) : ∃ s, next p = .failed s := by
  obtain ⟨hne, hs, happ⟩ := h
  rename_i s r
  have hstop : wordChar (charAt r) = false := by
    rcases happ with h | h | h | h <;> rw [h] <;> decide
  obtain ⟨hdrop, htake⟩ := dropWhile_of_stop hs hstop
  cases s with
  | nil => exact absurd rfl hne
  | cons c s =>
    rw [List.cons_append] at hdrop htake ⊢
    rw [next_word (hs c (by simp)), hdrop, if_pos happ]
    exact ⟨_, rfl⟩

/-! ## The length of a line -/

def lineChar (ch : Nat) : Bool := ch ≠ NULLCH ∧ ch ≠ SH_NEWLINE

/-- The number of characters in front of the one that ends the line. -/
def lineLen (p : List Nat) : Nat := (p.takeWhile lineChar).length

theorem lineLen_append (hs : ∀ c ∈ s, lineChar c) : lineLen (s ++ r) = s.length + lineLen r := by
  unfold lineLen
  rw [List.takeWhile_append_of_pos hs, List.length_append]

theorem lineChar_of_quotedChar {q c : Nat} (h : quotedChar q c) : lineChar c := by
  simp only [quotedChar, decide_eq_true_eq] at h
  exact decide_eq_true ⟨h.2.2, h.2.1⟩

theorem lineChar_of_wordChar {c : Nat} (h : wordChar c) : lineChar c := by
  simp only [wordChar, decide_eq_true_eq] at h
  exact decide_eq_true ⟨h.2.1, h.1⟩

theorem lineLen_quote {q : Nat} (hq : IsQuote q) (p : List Nat) :
    lineLen (q :: p) = lineLen p + 1 := by
  have hchar : ∀ c ∈ [q], lineChar c := by
    rintro c hc
    rw [List.mem_singleton.mp hc]
    rcases hq with rfl | rfl
    · decide
    · decide
  exact (lineLen_append hchar).trans (Nat.add_comm _ _)

/-- A token uses up its text. -/
theorem lineLen_begins (h : Begins t p r) : t.text.length + lineLen r ≤ lineLen p := by
  cases h with
  | amper => exact (@lineLen_append r [SH_AMPER] (by decide)).ge
  | less => exact (@lineLen_append r [SH_LESS] (by decide)).ge
  | greater => exact (@lineLen_append r [SH_GREATER] (by decide)).ge
  | @quoted q s r hq hs =>
    rw [lineLen_quote hq, lineLen_append fun c hc =>
      lineChar_of_quotedChar (hs c hc), lineLen_quote hq]
    change s.length + lineLen r ≤ _
    omega
  | word hne hs hstop happ =>
    exact (lineLen_append fun c hc => lineChar_of_wordChar (hs c hc)).ge

theorem lineLen_skipBlanks (p : List Nat) : lineLen (skipBlanks p) ≤ lineLen p := by
  induction p with
  | nil => exact le_rfl
  | cons ch p ih =>
    rw [skipBlanks]
    split
    · rename_i hblank
      have hchar : ∀ c ∈ [ch], lineChar c := by
        rintro c hc
        rw [List.mem_singleton.mp hc]
        rcases hblank with rfl | rfl
        · decide
        · decide
      have hlen : lineLen (ch :: p) = 1 + lineLen p := lineLen_append hchar
      omega
    · exact le_rfl

theorem charAt_skipBlanks (p : List Nat) :
    charAt (skipBlanks p) ≠ SH_BLANK ∧ charAt (skipBlanks p) ≠ SH_TAB := by
  induction p with
  | nil => decide
  | cons ch p ih =>
    rw [skipBlanks]
    split
    · exact ih
    · rename_i hblank
      exact not_or.mp hblank

theorem eq_charAt_cons (hp : charAt p ≠ NULLCH) : p = charAt p :: p.tail := by
  cases p with
  | nil => exact absurd rfl hp
  | cons c p => rfl

/-- What the next token means for the line. -/
def NextSpec (p : List Nat) : Next → Prop
  | .ended => LineEnds p
  | .failed s => (Unclosed p ∨ Joined p) ∧ s.length ≤ lineLen p
  | .token t r => Begins t p r

theorem nextSpec_quote {q : Nat} (hq : IsQuote q) (p : List Nat) :
    NextSpec (q :: p) (next (q :: p)) := by
  have hs : ∀ c ∈ p.takeWhile (quotedChar q), quotedChar q c :=
    fun c hc => List.mem_takeWhile_imp hc
  have hp : p.takeWhile (quotedChar q) ++ p.dropWhile (quotedChar q) = p :=
    List.takeWhile_append_dropWhile
  have hstop := charAt_dropWhile (quotedChar_null q) p
  rw [next_quote hq]
  generalize p.takeWhile (quotedChar q) = s at hs hp
  generalize p.dropWhile (quotedChar q) = r at hp hstop
  subst hp
  split
  · rename_i hclose
    have hr : r = q :: r.tail := by
      have hne : charAt r ≠ NULLCH := by
        rw [hclose]
        rcases hq with rfl | rfl
        · decide
        · decide
      rw [← hclose]
      exact eq_charAt_cons hne
    rw [hr]
    exact .quoted hq hs
  · rename_i hopen
    have hend : LineEnds r := by
      simp only [quotedChar, decide_eq_false_iff_not] at hstop
      unfold LineEnds
      tauto
    refine ⟨.inl (.intro hq hs hend), ?_⟩
    rw [lineLen_quote hq, lineLen_append fun c hc => lineChar_of_quotedChar (hs c hc)]
    omega

theorem nextSpec_word {c : Nat} (hc : wordChar c) (p : List Nat) :
    NextSpec (c :: p) (next (c :: p)) := by
  have hs : ∀ c' ∈ (c :: p).takeWhile wordChar, wordChar c' :=
    fun c' hc' => List.mem_takeWhile_imp hc'
  have hp : (c :: p).takeWhile wordChar ++ (c :: p).dropWhile wordChar = c :: p :=
    List.takeWhile_append_dropWhile
  have hne : (c :: p).takeWhile wordChar ≠ [] := by
    rw [List.takeWhile_cons, if_pos hc]
    exact List.cons_ne_nil _ _
  have hstop := charAt_dropWhile wordChar_null (c :: p)
  rw [next_word hc]
  generalize (c :: p).takeWhile wordChar = s at hs hp hne
  generalize (c :: p).dropWhile wordChar = r at hp hstop
  rw [← hp]
  split
  · rename_i happ
    refine ⟨.inr (.intro hne hs happ), ?_⟩
    rw [lineLen_append fun c hc => lineChar_of_wordChar (hs c hc)]
    exact Nat.le_add_right _ _
  · rename_i happ
    exact .word hne hs (by rw [hstop]; decide) happ

theorem next_spec (hblank : charAt p ≠ SH_BLANK) (htab : charAt p ≠ SH_TAB) :
    NextSpec p (next p) := by
  cases p with
  | nil => exact .inl rfl
  | cons c p =>
    by_cases hend : LineEnds (c :: p)
    · rw [next_ended hend]
      exact hend
    · by_cases hamper : c = SH_AMPER
      · rw [hamper]
        exact .amper
      · by_cases hless : c = SH_LESS
        · rw [hless]
          exact .less
        · by_cases hgreater : c = SH_GREATER
          · rw [hgreater]
            exact .greater
          · by_cases hquote : IsQuote c
            · exact nextSpec_quote hquote p
            · obtain ⟨hnull, hnl⟩ := not_or.mp hend
              obtain ⟨hsquote, hdquote⟩ := not_or.mp hquote
              exact nextSpec_word (decide_eq_true
                ⟨hnl, hnull, hless, hgreater, hblank, htab, hamper, hsquote, hdquote⟩) p

/-! ## One token -/

/-- A text that begins with the next token, without its end. -/
def Lex.part (st : Lex) (typ : Nat) (s : List Nat) : Lex :=
  { st with
    tok := Function.update st.tok st.ntok st.tbindex
    toktyp := Function.update st.toktyp st.ntok typ
    tokbuf := store st.tokbuf st.tbindex s
    tbindex := st.tbindex + s.length }

def Lex.push (st : Lex) (t : Token) : Lex := (st.part t.kind t.text).terminate

/-- The loop goes on with what comes next. -/
theorem lexanLoop_next (n : Nat) (p : List Nat) (st : Lex) (hend : ¬ LineEnds p) :
    lexanLoop (n + 1) p st = match next (skipBlanks p) with
    | .ended => ⟨st.ntok, some st.tbindex, st⟩
    | .failed s => ⟨SYSERR, none, st.part SH_TOK_OTHER s⟩
    | .token t r => lexanLoop n r (st.push t) := by
  obtain ⟨hblank, htab⟩ := charAt_skipBlanks p
  rw [lexanLoop, if_neg hend]
  generalize skipBlanks p = p at hblank htab ⊢
  cases p with
  | nil => rfl
  | cons c p =>
    have hhead : charAt (c :: p) = c := rfl
    simp only [hhead, List.tail_cons]
    by_cases hstop : c = SH_NEWLINE ∨ c = NULLCH
    · rw [if_pos hstop, next_ended (show LineEnds (c :: p) from hstop.symm)]
    · rw [if_neg hstop]
      by_cases hamper : c = SH_AMPER
      · rw [if_pos hamper, hamper]
        rfl
      · rw [if_neg hamper]
        by_cases hless : c = SH_LESS
        · rw [if_pos hless, hless]
          rfl
        · rw [if_neg hless]
          by_cases hgreater : c = SH_GREATER
          · rw [if_pos hgreater, hgreater]
            rfl
          · rw [if_neg hgreater]
            by_cases hquote : c = SH_SQUOTE ∨ c = SH_DQUOTE
            · rw [if_pos hquote, next_quote hquote, copyWhile_eq]
              by_cases hclosed : charAt (p.dropWhile (quotedChar c)) = c
              · rw [if_pos hclosed]
                exact if_neg (not_not.mpr hclosed)
              · rw [if_neg hclosed]
                exact if_pos hclosed
            · obtain ⟨hnl, hnull⟩ := not_or.mp hstop
              obtain ⟨hsquote, hdquote⟩ := not_or.mp hquote
              have hword : wordChar c := decide_eq_true
                ⟨hnl, hnull, hless, hgreater, hblank, htab, hamper, hsquote, hdquote⟩
              have hlen : ∀ s : List Nat, st.tbindex + 1 + s.length =
                  st.tbindex + (c :: s).length := by
                intro s
                rw [List.length_cons]
                omega
              rw [if_neg hquote, next_word hword, copyWhile_eq, List.dropWhile_cons_of_pos hword,
                List.takeWhile_cons_of_pos hword, hlen]
              dsimp only
              split
              · rename_i happ
                rw [if_pos (show Appended _ from happ)]
                rfl
              · rename_i happ
                rw [if_neg (show ¬ Appended _ from happ)]
                rfl

/-! ## What the specification says is possible -/

/-- The line has at most `n` tokens and ends behind them. -/
def Completes (n : Nat) (p : List Nat) (ts : List Token) : Prop :=
  ∃ rest, Reads p ts rest ∧ LineEnds (skipBlanks rest) ∧ ts.length ≤ n ∧
    (ts.length = n → LineEnds rest)

theorem Begins.unique {t' : Token} {r' : List Nat} (h : Begins t p r) (h' : Begins t' p r') :
    t = t' ∧ r = r' := by
  have heq : Next.token t r = Next.token t' r' := (next_begins h).symm.trans (next_begins h')
  cases heq
  exact ⟨rfl, rfl⟩

/-- Only one of the things that a line can begin with is there. -/
theorem Begins.not_lineEnds (h : Begins t p r) : ¬ LineEnds p := by
  intro hend
  have heq := (next_begins h).symm.trans (next_ended hend)
  cases heq

theorem Begins.not_failed (h : Begins t p r) : ¬ (Unclosed p ∨ Joined p) := by
  intro hfail
  obtain ⟨s, hs⟩ : ∃ s, next p = .failed s := hfail.elim next_unclosed next_joined
  have heq := (next_begins h).symm.trans hs
  cases heq

theorem not_failed_of_lineEnds (h : LineEnds p) : ¬ (Unclosed p ∨ Joined p) := by
  intro hfail
  obtain ⟨s, hs⟩ : ∃ s, next p = .failed s := hfail.elim next_unclosed next_joined
  have heq := (next_ended h).symm.trans hs
  cases heq

/-- No line is both accepted and rejected. -/
theorem Completes.not_rejected (h : Completes n p ts) : ¬ Rejected n p := by
  obtain ⟨rest, hreads, hend, hle, hfull⟩ := h
  rintro ⟨ts', rest', hreads', hfail⟩
  induction hreads generalizing n ts' with
  | nil =>
    cases hreads' with
    | nil =>
      rcases hfail with hfail | hfail | ⟨hlen, hmore⟩
      · exact not_failed_of_lineEnds hend (.inl hfail)
      · exact not_failed_of_lineEnds hend (.inr hfail)
      · exact hmore (hfull hlen)
    | cons hbegins' _ => exact hbegins'.not_lineEnds hend
  | cons hbegins hreads ih =>
    cases hreads' with
    | nil =>
      rcases hfail with hfail | hfail | ⟨hlen, -⟩
      · exact hbegins.not_failed (.inl hfail)
      · exact hbegins.not_failed (.inr hfail)
      · rw [← hlen] at hle
        exact absurd hle (by simp)
    | cons hbegins' hreads' =>
      obtain ⟨rfl, rfl⟩ := hbegins.unique hbegins'
      cases n with
      | zero => exact absurd hle (by simp)
      | succ n =>
        simp only [List.length_cons, Nat.succ_le_succ_iff, Nat.succ_inj] at hle hfull hfail
        exact ih hend hle hfull _ hreads' hfail

/-- The tokens of a line are determined. -/
theorem Tokens.unique {ts' : List Token} (h : Tokens line ts) (h' : Tokens line ts') :
    ts = ts' := by
  obtain ⟨rest, hreads, hend⟩ := h
  obtain ⟨rest', hreads', hend'⟩ := h'
  induction hreads generalizing ts' with
  | nil =>
    cases hreads' with
    | nil => rfl
    | cons hbegins' _ => exact absurd hend hbegins'.not_lineEnds
  | cons hbegins hreads ih =>
    cases hreads' with
    | nil => exact absurd hend' hbegins.not_lineEnds
    | cons hbegins' hreads' =>
      obtain ⟨rfl, rfl⟩ := hbegins.unique hbegins'
      rw [ih hend hreads']

theorem Begins.chars (h : Begins t p r) : ∀ c ∈ t.text, c ≠ NULLCH := by
  cases h with
  | amper => decide
  | less => decide
  | greater => decide
  | quoted hq hs =>
    intro c hc
    have hchar := hs c hc
    simp only [quotedChar, decide_eq_true_eq] at hchar
    exact hchar.2.2
  | word hne hs hstop happ =>
    intro c hc
    have hchar := hs c hc
    simp only [wordChar, decide_eq_true_eq] at hchar
    exact hchar.2.1

theorem Reads.chars (h : Reads p ts r) : ∀ t ∈ ts, ∀ c ∈ t.text, c ≠ NULLCH := by
  induction h with
  | nil => nofun
  | cons hbegins _ ih => exact List.forall_mem_cons.mpr ⟨hbegins.chars, ih⟩

/-! ## What is stored -/

/-- The texts of the tokens, each with a null. -/
def tokenBytes (ts : List Token) : List Nat := ts.flatMap fun t => t.text ++ [NULLCH]

theorem tokenBytes_append (ts ts' : List Token) :
    tokenBytes (ts ++ ts') = tokenBytes ts ++ tokenBytes ts' :=
  List.flatMap_append

theorem tokenBytes_singleton (t : Token) : tokenBytes [t] = t.text ++ [NULLCH] := by
  simp [tokenBytes]

theorem length_tokenBytes (ts : List Token) :
    (tokenBytes ts).length = (ts.map fun t => t.text.length + 1).sum := by
  simp [tokenBytes, List.length_flatMap]

/-- The tokens have been stored. -/
structure Lexed (ts : List Token) (st : Lex) : Prop where
  ntok : st.ntok = ts.length
  tbindex : st.tbindex = (tokenBytes ts).length
  tokbuf : Memory.Holds st.tokbuf 0 (tokenBytes ts)
  tok : ∀ i < ts.length, st.tok i = (tokenBytes (ts.take i)).length
  toktyp : ∀ i (h : i < ts.length), st.toktyp i = (ts[i]).kind

theorem Lexed.push {st : Lex} (h : Lexed ts st) (t : Token) : Lexed (ts ++ [t]) (st.push t) := by
  have hbytes : tokenBytes (ts ++ [t]) = tokenBytes ts ++ (t.text ++ [NULLCH]) := by
    rw [tokenBytes_append, tokenBytes_singleton]
  have htokbuf : (st.push t).tokbuf = store st.tokbuf st.tbindex (t.text ++ [NULLCH]) := by
    rw [store_append]
    rfl
  constructor
  · rw [List.length_append, ← h.ntok]
    rfl
  · rw [hbytes, List.length_append, List.length_append, ← h.tbindex]
    rfl
  · rw [hbytes, htokbuf]
    have hstart : 0 + (tokenBytes ts).length = st.tbindex := by rw [h.tbindex, Nat.zero_add]
    refine Memory.Holds.append (h.tokbuf.store (.inl hstart.le)) ?_
    rw [hstart]
    exact holds_store _ _ _
  · intro i hi
    rw [List.length_append, List.length_singleton] at hi
    change Function.update st.tok st.ntok st.tbindex i = _
    by_cases hlast : i = ts.length
    · rw [hlast, h.ntok, Function.update_self, List.take_left, h.tbindex]
    · have hi : i < ts.length := by omega
      rw [h.ntok, Function.update_of_ne hlast, h.tok i hi, List.take_append_of_le_length hi.le]
  · intro i hi
    rw [List.length_append, List.length_singleton] at hi
    change Function.update st.toktyp st.ntok t.kind i = _
    by_cases hlast : i = ts.length
    · subst hlast
      rw [h.ntok, Function.update_self, List.getElem_append_right le_rfl]
      simp
    · have hi : i < ts.length := by omega
      rw [h.ntok, Function.update_of_ne hlast, h.toktyp i hi, List.getElem_append_left hi]

/-- Nothing is stored behind the three arrays. -/
structure Within (st st' : Lex) : Prop where
  tokbuf : ∀ i, SHELL_BUFLEN + SHELL_MAXTOK ≤ i → st'.tokbuf i = st.tokbuf i
  tok : ∀ i, SHELL_MAXTOK ≤ i → st'.tok i = st.tok i
  toktyp : ∀ i, SHELL_MAXTOK ≤ i → st'.toktyp i = st.toktyp i

theorem Within.refl (st : Lex) : Within st st := ⟨fun _ _ => rfl, fun _ _ => rfl, fun _ _ => rfl⟩

theorem Within.trans {st st' st'' : Lex} (h : Within st st') (h' : Within st' st'') :
    Within st st'' :=
  ⟨fun i hi => (h'.tokbuf i hi).trans (h.tokbuf i hi), fun i hi => (h'.tok i hi).trans (h.tok i hi),
    fun i hi => (h'.toktyp i hi).trans (h.toktyp i hi)⟩

theorem within_part {st : Lex} {typ : Nat} (hntok : st.ntok < SHELL_MAXTOK)
    (hroom : st.tbindex + s.length ≤ SHELL_BUFLEN + SHELL_MAXTOK) : Within st (st.part typ s) :=
  ⟨fun _ hi => store_outside (.inr (hroom.trans hi)),
    fun _ hi => Function.update_of_ne (by omega) _ _, fun _ hi =>
      Function.update_of_ne (by omega) _ _⟩

theorem within_push {st : Lex} (hntok : st.ntok < SHELL_MAXTOK)
    (hroom : st.tbindex + t.text.length < SHELL_BUFLEN + SHELL_MAXTOK) : Within st (st.push t) := by
  refine (within_part hntok hroom.le).trans ⟨fun i hi => ?_, fun _ _ => rfl, fun _ _ => rfl⟩
  exact Function.update_of_ne (show i ≠ st.tbindex + t.text.length by omega) _ _

/-! ## All tokens -/

/-- With `ts` before `p`, the line is rejected, or its tokens are stored behind `ts`. -/
structure LoopRight (n : Nat) (p : List Nat) (ts : List Token) (st : Lex) (r : LexResult) :
    Prop where
  within : Within st r.lex
  result : r.ret = SYSERR ∧ Rejected n p ∨ ∃ ts', Completes n p ts' ∧ Lexed (ts ++ ts') r.lex ∧
    r.ret = (ts ++ ts').length ∧ r.tlen = some (tokenBytes (ts ++ ts')).length

theorem lineEnds_skipBlanks (h : LineEnds p) : LineEnds (skipBlanks p) := by
  cases p with
  | nil => exact h
  | cons c p =>
    have hblank : ¬ (c = SH_BLANK ∨ c = SH_TAB) := by
      rcases h with hc | hc
      · rw [show c = NULLCH from hc]
        decide
      · rw [show c = SH_NEWLINE from hc]
        decide
    rw [skipBlanks, if_neg hblank]
    exact h

theorem loopRight_ended {st : Lex} (h : Lexed ts st) (hend : LineEnds (skipBlanks p))
    (hfull : n = 0 → LineEnds p) : LoopRight n p ts st ⟨st.ntok, some st.tbindex, st⟩ := by
  refine ⟨.refl st, .inr ⟨[], ⟨p, .nil, hend, Nat.zero_le _, fun h₀ => hfull h₀.symm⟩, ?_⟩⟩
  rw [List.append_nil, h.ntok, h.tbindex]
  exact ⟨h, rfl, rfl⟩

/-- Another token in front. -/
theorem LoopRight.cons {st : Lex} {res : LexResult} (h : LoopRight n r (ts ++ [t]) (st.push t) res)
    (hbegins : Begins t (skipBlanks p) r) (hwithin : Within st (st.push t)) :
    LoopRight (n + 1) p ts st res := by
  refine ⟨hwithin.trans h.within, ?_⟩
  rcases h.result with ⟨hret, ts', rest, hreads, hfail⟩ | ⟨ts', hcomplete, hlexed⟩
  · refine .inl ⟨hret, t :: ts', rest, .cons hbegins hreads, ?_⟩
    rw [List.length_cons, Nat.succ_inj]
    exact hfail
  · obtain ⟨rest, hreads, hend, hle, hfull⟩ := hcomplete
    rw [List.append_assoc, List.singleton_append] at hlexed
    refine .inr ⟨t :: ts', ⟨rest, .cons hbegins hreads, hend, ?_, ?_⟩, hlexed⟩
    · exact Nat.succ_le_succ hle
    · rw [List.length_cons, Nat.succ_inj]
      exact hfull

/-- The loop rejects the line, or it stores its tokens. -/
theorem lexanLoop_spec {st : Lex} (h : Lexed ts st) (hn : ts.length + n = SHELL_MAXTOK)
    (hroom : st.tbindex + lineLen p ≤ SHELL_BUFLEN + ts.length) :
    LoopRight n p ts st (lexanLoop n p st) := by
  induction n generalizing p st ts with
  | zero =>
    unfold lexanLoop
    split
    · rename_i hend
      exact loopRight_ended h (lineEnds_skipBlanks hend) fun _ => hend
    · rename_i hend
      exact ⟨.refl st, .inl ⟨rfl, [], p, .nil, .inr (.inr ⟨rfl, hend⟩)⟩⟩
  | succ n ih =>
    by_cases hend : LineEnds p
    · unfold lexanLoop
      rw [if_pos hend]
      exact loopRight_ended h (lineEnds_skipBlanks hend) nofun
    · have hntok : st.ntok < SHELL_MAXTOK := by
        rw [h.ntok]
        omega
      have hline := lineLen_skipBlanks p
      have hnext := next_spec (charAt_skipBlanks p).1 (charAt_skipBlanks p).2
      rw [lexanLoop_next n p st hend]
      cases hcase : next (skipBlanks p) with
      | ended =>
        rw [hcase] at hnext
        exact loopRight_ended h hnext nofun
      | failed s =>
        rw [hcase] at hnext
        obtain ⟨hfail, hlen⟩ := hnext
        refine ⟨within_part hntok (by omega), .inl ⟨rfl, [], p, .nil, ?_⟩⟩
        exact hfail.imp_right .inl
      | token t r =>
        rw [hcase] at hnext
        have hlen := lineLen_begins hnext
        have hpush : Within st (st.push t) := within_push hntok (by omega)
        refine (ih (h.push t) ?_ ?_).cons hnext hpush
        · rw [List.length_append, List.length_singleton]
          omega
        · have hindex : (st.push t).tbindex = st.tbindex + t.text.length + 1 := rfl
          rw [List.length_append, List.length_singleton, hindex]
          omega

/-- The texts take at most one character more than the tokens of the line. -/
theorem Reads.length_le (h : Reads p ts r) :
    (tokenBytes ts).length + lineLen r ≤ lineLen p + ts.length := by
  induction h with
  | nil => exact (Nat.zero_add _).le
  | @cons p r r' t ts hbegins _ ih =>
    have hlen := lineLen_begins hbegins
    have hblanks := lineLen_skipBlanks p
    have hbytes : tokenBytes (t :: ts) = (t.text ++ [NULLCH]) ++ tokenBytes ts := rfl
    rw [hbytes, List.length_append, List.length_append, List.length_singleton, List.length_cons]
    omega

theorem lexed_nil (tokbuf : Chars) (tok toktyp : Nat → Nat) :
    Lexed [] ⟨0, 0, tokbuf, tok, toktyp⟩ :=
  ⟨rfl, rfl, rfl, nofun, nofun⟩

/-- `lexan` rejects a line, or it stores its tokens. -/
theorem lexan_right (line : List Nat) (tokbuf : Chars) (tok toktyp : Nat → Nat)
    (h : lineLen line ≤ SHELL_BUFLEN) :
    LoopRight SHELL_MAXTOK line [] ⟨0, 0, tokbuf, tok, toktyp⟩ (lexan line tokbuf tok toktyp) :=
  lexanLoop_spec (lexed_nil tokbuf tok toktyp) rfl (by simpa using h)

/-- The text of a token among the texts of all. -/
theorem isText_tokenBytes {mem : Chars} {a i : Nat} (h : Memory.Holds mem a (tokenBytes ts))
    (hchars : ∀ t ∈ ts, ∀ c ∈ t.text, c ≠ NULLCH) (hi : i < ts.length) :
    IsText mem (a + (tokenBytes (ts.take i)).length) (ts[i]).text := by
  have hsplit : ts = ts.take i ++ ([ts[i]] ++ ts.drop (i + 1)) := by
    rw [List.singleton_append, List.cons_getElem_drop_succ, List.take_append_drop]
  have hbytes : tokenBytes ts =
      tokenBytes (ts.take i) ++ ((ts[i].text ++ [NULLCH]) ++ tokenBytes (ts.drop (i + 1))) := by
    rw [← tokenBytes_singleton, ← tokenBytes_append, ← tokenBytes_append, ← hsplit]
  rw [hbytes, holds_append, holds_append] at h
  exact isText_iff.mpr ⟨hchars _ (List.getElem_mem hi), h.2.1⟩

theorem Lexed.isText {st : Lex} (h : Lexed ts st) (hchars : ∀ t ∈ ts, ∀ c ∈ t.text, c ≠ NULLCH)
    {i : Nat}
    (hi : i < ts.length) : IsText st.tokbuf (st.tok i) (ts[i]).text := by
  have htext := isText_tokenBytes h.tokbuf hchars hi
  rwa [Nat.zero_add, ← h.tok i hi] at htext

/-- What `lexan` has to do with a line. -/
structure LexanRight (line : List Nat) (before : Lex) (r : LexResult) : Prop where
  within : Within before r.lex
  syserr : r.ret = SYSERR ↔ Rejected SHELL_MAXTOK line
  tokens : r.ret ≠ SYSERR → ∃ ts, Tokens line ts ∧ r.ret = ts.length ∧
    r.tlen = some (ts.map fun t => t.text.length + 1).sum ∧
    ∀ i (h : i < ts.length), IsText r.lex.tokbuf (r.lex.tok i) (ts[i]).text ∧
      r.lex.toktyp i = (ts[i]).kind

theorem lexan_spec (line : List Nat) (tokbuf : Chars) (tok toktyp : Nat → Nat)
    (h : lineLen line ≤ SHELL_BUFLEN) :
    LexanRight line ⟨0, 0, tokbuf, tok, toktyp⟩ (lexan line tokbuf tok toktyp) := by
  obtain ⟨hwithin, hresult⟩ := lexan_right line tokbuf tok toktyp h
  refine ⟨hwithin, ?_, fun hret => ?_⟩
  · rcases hresult with ⟨hret, hrej⟩ | ⟨ts, hcomplete, -, hret, -⟩
    · exact iff_of_true hret hrej
    · refine iff_of_false (fun hsys => ?_) hcomplete.not_rejected
      rw [hsys] at hret
      unfold SYSERR at hret
      omega
  · rcases hresult with ⟨hsys, -⟩ | ⟨ts, ⟨rest, hreads, hend, -⟩, hlexed, hlen, htlen⟩
    · exact absurd hsys hret
    · rw [List.nil_append] at hlexed hlen htlen
      refine ⟨ts, ⟨rest, hreads, hend⟩, hlen, by rw [htlen, length_tokenBytes], fun i hi => ?_⟩
      exact ⟨hlexed.isText hreads.chars hi, hlexed.toktyp i hi⟩

/-- `ls "a b"&`. -/
theorem lexan_background : lineLen [108, 115, 32, 34, 97, 32, 98, 34, 38, 10] ≤ SHELL_BUFLEN ∧
    LexanRight [108, 115, 32, 34, 97, 32, 98, 34, 38, 10] ⟨0, 0, fun _ => 0, fun _ => 0, fun _ => 0⟩
      (lexan [108, 115, 32, 34, 97, 32, 98, 34, 38, 10] (fun _ => 0) (fun _ => 0) fun _ => 0) :=
  ⟨by decide, lexan_spec _ _ _ _ (by decide)⟩

example : (lexan [108, 115, 32, 34, 97, 32, 98, 34, 38, 10] (fun _ => 0) (fun _ => 0) fun _ =>
    0).ret =
    3 := by decide

end Xinu
