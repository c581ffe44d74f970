import Xinu.Lexan

/-!
# The commands of the shell

One round of the loop in `shell`, from the tokens of a line to the command it starts. The shell
takes the background sign and the redirections off the end of the tokens.
-/

namespace Xinu

/-! ## shell.c -/

/-- The names in `cmdtab`, and whether the command is a builtin. -/
def cmdtab : List (String × Bool) :=
  [("argecho", true), ("arp", false), ("cat", false), ("clear", true), ("date", false),
    ("devdump", false), ("echo", false), ("exit", true), ("help", false), ("ipaddr", false),
    ("kill", true), ("memdump", false), ("memstat", false), ("ping", false), ("ps", false),
    ("sleep", false), ("udp", false), ("udpecho", false), ("udpeserver", false),
    ("uptime", false), ("?", false), ("hello", false), ("prodcons", false), ("reset", false)]

/-- What is left of the tokens; the names are indices in `tokbuf`. -/
structure Command where
  ntok : Nat
  tlen : Nat
  backgnd : Bool
  inname : Option Nat
  outname : Option Nat
  deriving DecidableEq

/-- A last token `&`. -/
def background (toktyp : Nat → Nat) (ntok tlen : Nat) : Command :=
  if toktyp (ntok - 1) = SH_TOK_AMPER then ⟨ntok - 1, tlen - 2, true, none, none⟩
  else ⟨ntok, tlen, false, none, none⟩

/-- A redirection at the end; `none` is a syntax error. The shell does this twice, the first time
without a test for a second file of one kind, when there is no file yet. -/
def redirection (tok toktyp : Nat → Nat) (c : Command) : Option Command :=
  if 3 ≤ c.ntok ∧ (toktyp (c.ntok - 2) = SH_TOK_LESS ∨ toktyp (c.ntok - 2) = SH_TOK_GREATER) then
    if toktyp (c.ntok - 1) ≠ SH_TOK_OTHER then none
    else if toktyp (c.ntok - 2) = SH_TOK_LESS then
      if c.inname ≠ none then none
      else some { c with
        inname := some (tok (c.ntok - 1)), ntok := c.ntok - 2, tlen := tok (c.ntok - 2) }
    else if c.outname ≠ none then none
    else some { c with
      outname := some (tok (c.ntok - 1)), ntok := c.ntok - 2, tlen := tok (c.ntok - 2) }
  else some c

/-- The command of a line with tokens. -/
def parseCommand (tok toktyp : Nat → Nat) (ntok tlen : Nat) : Option Command := do
  let c ← redirection tok toktyp (background toktyp ntok tlen)
  let c ← redirection tok toktyp c
  if c.ntok = 0 ∨ ∃ i < c.ntok, toktyp i ≠ SH_TOK_OTHER then none else some c

/-- The loop over the name `src` of a command and the first token. -/
def sameName (tokbuf : Chars) : List Char → Nat → Bool
  | [], cmp => tokbuf cmp = NULLCH
  | ch :: src, cmp => tokbuf cmp = ch.toNat ∧ sameName tokbuf src (cmp + 1)

/-- What one round of the loop comes to. -/
inductive Round where
  | again
  | syntaxError
  | notFound
  | cannotRedirect
  /-- The number of the command in `cmdtab`. -/
  | builtin (j ntok : Nat)
  | inputError
  | outputError
  | spawn (j : Nat) (c : Command) (stdinput stdoutput : Int)
  deriving DecidableEq

/-- A round of the shell on the device `dev` after `lexan`. The files are opened by `openIn` and
`openOut`. -/
def shellRound (dev : Int) (openIn openOut : Nat → Int) (r : LexResult) : Round :=
  if r.ret = SYSERR then .syntaxError
  else if r.ret = 0 then .again
  else
    match parseCommand r.lex.tok r.lex.toktyp r.ret.toNat (r.tlen.getD 0) with
    | none => .syntaxError
    | some c =>
        let j := cmdtab.findIdx fun cmd => sameName r.lex.tokbuf cmd.1.toList 0
        match cmdtab[j]? with
        | none => .notFound
        | some (_, cbuiltin) =>
            if cbuiltin then
              if c.inname ≠ none ∨ c.outname ≠ none ∨ c.backgnd then .cannotRedirect
              else .builtin j c.ntok
            else
              let stdinput := c.inname.elim dev openIn
              let stdoutput := c.outname.elim dev openOut
              if c.inname ≠ none ∧ stdinput = SYSERR then .inputError
              else if c.outname ≠ none ∧ stdoutput = SYSERR then .outputError
              else .spawn j c stdinput stdoutput

/-! ## The tokens of a command -/

/-- A file to redirect from or to, or one of both. -/
inductive Redirections : List Token → Prop
  | none : Redirections []
  | input (f : List Nat) : Redirections [.less, .other f]
  | output (g : List Nat) : Redirections [.greater, .other g]
  | inputOutput (f g : List Nat) : Redirections [.less, .other f, .greater, .other g]
  | outputInput (f g : List Nat) : Redirections [.greater, .other g, .less, .other f]

/-- The tokens are the words of a command, redirections and perhaps `&`. -/
structure IsCommand (ts : List Token) (ws : List (List Nat)) : Prop where
  words : ws ≠ []
  shape : ∃ reds bg, ts = ws.map Token.other ++ reds ++ bg ∧ Redirections reds ∧
    (bg = [] ∨ bg = [Token.amper])

/-- The command has come down to the tokens `cs`, with `rest` taken off. -/
structure Command.Left (c : Command) (ts cs rest : List Token) : Prop where
  split : ts = cs ++ rest
  ntok : c.ntok = cs.length
  tlen : c.tlen = (tokenBytes cs).length

variable {ts cs rest : List Token} {st : Lex} {c c' : Command} {t : Token}

theorem Token.kind_amper (h : t.kind = SH_TOK_AMPER) : t = .amper := by
  cases t with
  | amper => rfl
  | other s => exact absurd h (show SH_TOK_OTHER ≠ SH_TOK_AMPER by decide)
  | _ => exact absurd h (by decide)

theorem Token.kind_less (h : t.kind = SH_TOK_LESS) : t = .less := by
  cases t with
  | less => rfl
  | other s => exact absurd h (show SH_TOK_OTHER ≠ SH_TOK_LESS by decide)
  | _ => exact absurd h (by decide)

theorem Token.kind_greater (h : t.kind = SH_TOK_GREATER) : t = .greater := by
  cases t with
  | greater => rfl
  | other s => exact absurd h (show SH_TOK_OTHER ≠ SH_TOK_GREATER by decide)
  | _ => exact absurd h (by decide)

theorem Token.kind_other (h : t.kind = SH_TOK_OTHER) : ∃ s, t = .other s := by
  cases t with
  | other s => exact ⟨s, rfl⟩
  | _ => exact absurd h (by decide)

/-- The tokens behind an index. -/
theorem Lexed.at_append (h : Lexed (cs ++ t :: rest) st) :
    st.toktyp cs.length = t.kind ∧ st.tok cs.length = (tokenBytes cs).length := by
  have hlt : cs.length < (cs ++ t :: rest).length := by simp
  constructor
  · rw [h.toktyp _ hlt, List.getElem_append_right le_rfl]
    simp
  · rw [h.tok _ hlt, List.take_left]

theorem exists_concat (cs : List Token) (n : Nat) (h : cs.length = n + 1) :
    ∃ ds t, cs = ds ++ [t] ∧ ds.length = n := by
  obtain ⟨ds, t, rfl⟩ := List.eq_nil_or_concat cs |>.resolve_left (by rintro rfl; simp at h)
  refine ⟨ds, t, List.concat_eq_append, ?_⟩
  simpa using h

/-- At most the background sign is taken off. -/
theorem background_left (h : Lexed ts st) (hne : ts ≠ []) : ∃ cs bg,
    (background st.toktyp ts.length (tokenBytes ts).length).Left ts cs bg ∧
      (bg = [] ∨ bg = [.amper]) := by
  obtain ⟨n, hn⟩ := Nat.exists_eq_add_of_lt (List.length_pos_iff.mpr hne)
  obtain ⟨ds, t, rfl, hlen⟩ := exists_concat ts n (by omega)
  unfold background
  have hlast : (ds ++ [t]).length - 1 = ds.length := by simp
  rw [hlast, h.at_append.1]
  split
  · rename_i hkind
    obtain rfl := t.kind_amper hkind
    refine ⟨ds, [.amper], ⟨rfl, rfl, ?_⟩, .inr rfl⟩
    rw [tokenBytes_append, List.length_append]
    rfl
  · exact ⟨ds ++ [t], [], ⟨(List.append_nil _).symm, rfl, rfl⟩, .inl rfl⟩

/-- What a redirection takes off. -/
inductive Redirects (c : Command) : Command → List Token → Prop
  | none : Redirects c c []
  | input {c' : Command} (f : List Nat) : c.inname = Option.none → c'.inname ≠ Option.none →
      Redirects c c' [.less, .other f]
  | output {c' : Command} (g : List Nat) : c.outname = Option.none → c'.outname ≠ Option.none →
      Redirects c c' [.greater, .other g]

theorem redirection_left (h : Lexed ts st) (hleft : c.Left ts cs rest)
    (hc : redirection st.tok st.toktyp c = some c') : ∃ ds red, cs = ds ++ red ∧
      c'.Left ts ds (red ++ rest) ∧ Redirects c c' red := by
  unfold redirection at hc
  split at hc
  · rename_i hred
    obtain ⟨hlen, hkind⟩ := hred
    have hntok := hleft.ntok
    have hsplit := hleft.split
    obtain ⟨es, b, rfl, hes⟩ := exists_concat cs (cs.length - 1) (by omega)
    obtain ⟨ds, a, rfl, hds⟩ := exists_concat es (es.length - 1) (by omega)
    simp only [List.length_append, List.length_singleton] at hntok hes
    have hsecond : c.ntok - 2 = ds.length := by omega
    have hfirst : c.ntok - 1 = (ds ++ [a]).length := by
      rw [List.length_append, List.length_singleton]
      omega
    have hts : ts = ds ++ a :: b :: rest := by simp [hsplit]
    have hts' : ts = (ds ++ [a]) ++ b :: rest := by simp [hsplit]
    have ha := (hts ▸ h).at_append
    have hb := (hts' ▸ h).at_append
    rw [hsecond, ha.1] at hkind hc
    rw [hfirst, hb.1] at hc
    rw [ha.2] at hc
    split at hc
    · cases hc
    · rename_i hother
      obtain ⟨f, rfl⟩ := b.kind_other (not_not.mp hother)
      split at hc
      · rename_i hless
        obtain rfl := a.kind_less hless
        split at hc
        · cases hc
        · rename_i hin
          cases hc
          exact ⟨ds, [.less, .other f], by simp, ⟨hts, rfl, rfl⟩,
            .input f (not_not.mp hin) (by simp)⟩
      · rename_i hless
        obtain rfl := a.kind_greater (hkind.resolve_left hless)
        split at hc
        · cases hc
        · rename_i hout
          cases hc
          exact ⟨ds, [.greater, .other f], by simp, ⟨hts, rfl, rfl⟩,
            .output f (not_not.mp hout) (by simp)⟩
  · cases hc
    exact ⟨cs, [], (List.append_nil _).symm, hleft, .none⟩

/-- Words alone are left. -/
theorem exists_words (h : ∀ t ∈ cs, t.kind = SH_TOK_OTHER) : ∃ ws :
    List (List Nat), cs = ws.map Token.other := by
  induction cs with
  | nil => exact ⟨[], rfl⟩
  | cons t cs ih =>
    obtain ⟨hkind, hcs⟩ := List.forall_mem_cons.mp h
    obtain ⟨s, rfl⟩ := t.kind_other hkind
    obtain ⟨ws, rfl⟩ := ih hcs
    exact ⟨s :: ws, rfl⟩

/-- Twice, no file is redirected twice. -/
theorem redirections_of {c₀ c₁ c₂ : Command} {red₁ red₂ : List Token} (h₁ : Redirects c₀ c₁ red₁)
    (h₂ : Redirects c₁ c₂ red₂) : Redirections (red₂ ++ red₁) := by
  cases h₁ with
  | none =>
    cases h₂ with
    | none => exact .none
    | input f => exact .input f
    | output g => exact .output g
  | input f _ hset =>
    cases h₂ with
    | none => exact .input f
    | input f' hnone => exact absurd hnone hset
    | output g => exact .outputInput f g
  | output g _ hset =>
    cases h₂ with
    | none => exact .output g
    | input f => exact .inputOutput f g
    | output g' hnone => exact absurd hnone hset

/-- A command that the shell accepts has the words of its line. -/
theorem parseCommand_spec (h : Lexed ts st) (hne : ts ≠ [])
    (hc : parseCommand st.tok st.toktyp ts.length (tokenBytes ts).length = some c) :
    ∃ ws, IsCommand ts ws ∧ ∃ rest, c.Left ts (ws.map Token.other) rest := by
  unfold parseCommand at hc
  obtain ⟨cs₀, bg, hleft₀, hbg⟩ := background_left h hne
  cases h₁ : redirection st.tok st.toktyp
    (background st.toktyp ts.length (tokenBytes ts).length) with
  | none =>
    rw [h₁] at hc
    cases hc
  | some c₁ =>
    rw [h₁] at hc
    obtain ⟨cs₁, red₁, rfl, hleft₁, hred₁⟩ := redirection_left h hleft₀ h₁
    cases h₂ : redirection st.tok st.toktyp c₁ with
    | none =>
      simp only [Option.bind_eq_bind, Option.bind_some, h₂] at hc
      cases hc
    | some c₂ =>
      simp only [Option.bind_eq_bind, Option.bind_some, h₂] at hc
      obtain ⟨cs₂, red₂, rfl, hleft₂, hred₂⟩ := redirection_left h hleft₁ h₂
      split at hc
      · cases hc
      · rename_i hwords
        cases hc
        rw [not_or] at hwords
        obtain ⟨hpos, hkinds⟩ := hwords
        push Not at hkinds
        have hsplit : ts = cs₂ ++ (red₂ ++ (red₁ ++ bg)) := hleft₂.split
        obtain ⟨ws, rfl⟩ : ∃ ws : List (List Nat), cs₂ = ws.map Token.other := by
          refine exists_words fun t ht => ?_
          obtain ⟨i, hi, rfl⟩ := List.mem_iff_getElem.mp ht
          have hi' : i < ts.length := by
            rw [hsplit, List.length_append]
            omega
          rw [← hkinds i (hleft₂.ntok ▸ hi), h.toktyp i hi']
          simp only [hsplit, List.getElem_append_left hi]
        refine ⟨ws, ⟨?_, red₂ ++ red₁, bg, ?_, redirections_of hred₁ hred₂, hbg⟩, _, hleft₂⟩
        · rintro rfl
          exact hpos hleft₂.ntok
        · rw [hsplit, List.append_assoc, List.append_assoc]

/-- A command that is spawned has been accepted. -/
theorem shellRound_spawn {dev stdinput stdoutput : Int} {openIn openOut : Nat → Int} {r : LexResult}
    {j : Nat} (h : shellRound dev openIn openOut r = .spawn j c stdinput stdoutput) :
    r.ret ≠ SYSERR ∧ r.ret ≠ 0 ∧
      parseCommand r.lex.tok r.lex.toktyp r.ret.toNat (r.tlen.getD 0) = some c := by
  unfold shellRound at h
  split at h
  · cases h
  · rename_i hsys
    split at h
    · cases h
    · rename_i hzero
      refine ⟨hsys, hzero, ?_⟩
      split at h
      · cases h
      · rename_i c' hparse
        rw [hparse]
        dsimp only at h
        split at h
        · cases h
        · split at h
          · split at h
            · cases h
            · cases h
          · split at h
            · cases h
            · split at h
              · cases h
              · cases h
                rfl

end Xinu
