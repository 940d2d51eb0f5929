import Mathlib.Data.List.Forall2
import Mathlib.Logic.Function.Iterate
import Xv6.Sh.Lexer

/-!
# The parser of `sh`

The recursive descent of `sh.c`, from `parsecmd` down, over a buffer and a pointer into it. Every call and
every round of a loop uses up fuel; `parsecmd` has enough for the length of the line. The grammar is a
relation between tokens and command trees, and the parser succeeds just on the lines it derives.
-/

namespace Xv6.Sh

variable {w line : Str} {rs : List (Token × Str)}

/-- A command; its strings are of type `α`. -/
inductive Cmd (α : Type)
  | exec (argv : List α)
  | redir (cmd : Cmd α) (file : α) (mode fd : ℕ)
  | pipe (left right : Cmd α)
  | list (left right : Cmd α)
  | back (cmd : Cmd α)
  deriving DecidableEq

/-- A counted string: its start, and its end. -/
abbrev Ptr := ℕ × ℕ

inductive Err
  | panic (msg : String)
  /-- Out of fuel. -/
  | fuel
  deriving DecidableEq

abbrev O_RDONLY : ℕ := 0x000

abbrev O_WRONLY : ℕ := 0x001

abbrev O_CREATE : ℕ := 0x200

abbrev MAXARGS : ℕ := 10

/-- `cmd->argv[argc] = q`, where `cmd` is the command for `exec` inside the redirections. -/
def Cmd.addArg {α : Type} : Cmd α → α → Cmd α
  | .exec argv, a => .exec (argv ++ [a])
  | .redir cmd file mode fd, a => .redir (cmd.addArg a) file mode fd
  | cmd, _ => cmd

/-- The `switch` of `parseredirs`. -/
def redircmd {α : Type} (tok : UInt8) (cmd : Cmd α) (file : α) : Cmd α :=
  if tok = LT then .redir cmd file O_RDONLY 0
  else if tok = GT then .redir cmd file (O_WRONLY ||| O_CREATE) 1
  else if tok = 0x2B then .redir cmd file (O_WRONLY ||| O_CREATE) 1
  else cmd

section

variable (m : Str) (es : ℕ)

def parseredirs : ℕ → Cmd Ptr → ℕ → Except Err (Cmd Ptr × ℕ)
  | 0, _, _ => .error .fuel
  | fuel + 1, cmd, ps =>
    let (more, ps) := peek m es ps [LT, GT]
    if more then
      let (tok, _, ps) := gettoken m es ps
      let (a, file, ps) := gettoken m es ps
      if a ≠ 0x61 then .error (.panic "missing file for redirection")
      else parseredirs fuel (redircmd tok cmd file) ps
    else .ok (cmd, ps)

/-- The loop of `parseexec`. -/
def parseargs : ℕ → ℕ → Cmd Ptr → ℕ → Except Err (Cmd Ptr × ℕ)
  | 0, _, _, _ => .error .fuel
  | fuel + 1, argc, ret, ps =>
    let (stop, ps) := peek m es ps [BAR, RPAREN, AMP, SEMI]
    if stop then .ok (ret, ps)
    else
      let (tok, arg, ps) := gettoken m es ps
      if tok = 0 then .ok (ret, ps)
      else if tok ≠ 0x61 then .error (.panic "syntax")
      else if argc + 1 ≥ MAXARGS then .error (.panic "too many args")
      else do
        let (ret, ps) ← parseredirs m es fuel (ret.addArg arg) ps
        parseargs fuel (argc + 1) ret ps

/-- The loop of `parseline`. -/
def parseback : ℕ → Cmd Ptr → ℕ → Except Err (Cmd Ptr × ℕ)
  | 0, _, _ => .error .fuel
  | fuel + 1, cmd, ps =>
    let (more, ps) := peek m es ps [AMP]
    if more then
      let (_, _, ps) := gettoken m es ps
      parseback fuel (.back cmd) ps
    else .ok (cmd, ps)

mutual

def parseline : ℕ → ℕ → Except Err (Cmd Ptr × ℕ)
  | 0, _ => .error .fuel
  | fuel + 1, ps => do
    let (cmd, ps) ← parsepipe fuel ps
    let (cmd, ps) ← parseback m es fuel cmd ps
    let (more, ps) := peek m es ps [SEMI]
    if more then
      let (_, _, ps) := gettoken m es ps
      let (right, ps) ← parseline fuel ps
      return (.list cmd right, ps)
    else return (cmd, ps)

def parsepipe : ℕ → ℕ → Except Err (Cmd Ptr × ℕ)
  | 0, _ => .error .fuel
  | fuel + 1, ps => do
    let (cmd, ps) ← parseexec fuel ps
    let (more, ps) := peek m es ps [BAR]
    if more then
      let (_, _, ps) := gettoken m es ps
      let (right, ps) ← parsepipe fuel ps
      return (.pipe cmd right, ps)
    else return (cmd, ps)

def parseexec : ℕ → ℕ → Except Err (Cmd Ptr × ℕ)
  | 0, _ => .error .fuel
  | fuel + 1, ps =>
    let (block, ps) := peek m es ps [LPAREN]
    if block then parseblock fuel ps
    else do
      let (ret, ps) ← parseredirs m es fuel (.exec []) ps
      parseargs m es fuel 0 ret ps

def parseblock : ℕ → ℕ → Except Err (Cmd Ptr × ℕ)
  | 0, _ => .error .fuel
  | fuel + 1, ps =>
    let (block, ps) := peek m es ps [LPAREN]
    if !block then .error (.panic "parseblock")
    else
      let (_, _, ps) := gettoken m es ps
      do
        let (cmd, ps) ← parseline fuel ps
        let (close, ps) := peek m es ps [RPAREN]
        if !close then .error (.panic "syntax - missing )")
        else
          let (_, _, ps) := gettoken m es ps
          parseredirs m es fuel cmd ps

end

end

/-- `nulterminate` -/
def nulterminate : Cmd Ptr → Str → Str
  | .exec argv, m => argv.foldl (fun m p => m.set p.2 0) m
  | .redir cmd file _ _, m => (nulterminate cmd m).set file.2 0
  | .pipe left right, m => nulterminate right (nulterminate left m)
  | .list left right, m => nulterminate right (nulterminate left m)
  | .back cmd, m => nulterminate cmd m

/-- `parsecmd`: the tree and the buffer that its strings are in. It also prints what is left over. -/
def parsecmd (m : Str) : Except Err (Cmd Ptr × Str) :=
  let es := (m.takeWhile (· ≠ 0)).length
  do
    let (cmd, ps) ← parseline m es (4 * es + 4) 0
    let (_, ps) := peek m es ps []
    if ps ≠ es then .error (.panic "syntax")
    else return (cmd, nulterminate cmd m)

/-! ## The grammar -/

/-- `'<' | '>' | '>>'` -/
def Redirect (t : Token) : Prop := t = .lt ∨ t = .gt ∨ t = .gtgt

/-- Redirections go around what there is, the later ones outside. -/
def wrap (rs : List (Token × Str)) (c : Cmd Str) : Cmd Str :=
  rs.foldl (fun c r => redircmd r.1.code c r.2) c

/-- `redir*` -/
inductive Redirs : List Token → List (Token × Str) → Prop
  | nil : Redirs [] []
  | cons {op : Token} {w : Str} {ts : List Token} {rs : List (Token × Str)} :
      Redirect op → Redirs ts rs → Redirs (op :: .word w :: ts) ((op, w) :: rs)

/-- `(word redir*)*` -/
inductive Words : List Token → List Str → List (Token × Str) → Prop
  | nil : Words [] [] []
  | cons {w : Str} {ts us : List Token} {ws : List Str} {rs rs' : List (Token × Str)} :
      Redirs ts rs → Words us ws rs' → Words (.word w :: (ts ++ us)) (w :: ws) (rs ++ rs')

mutual

/-- `line ::= pipe '&'* [';' line]` -/
inductive Line : List Token → Cmd Str → Prop
  | pipe {ts : List Token} {c : Cmd Str} (n : ℕ) :
      Pipe ts c → Line (ts ++ List.replicate n .amp) (Cmd.back^[n] c)
  | list {ts us : List Token} {c d : Cmd Str} (n : ℕ) :
      Pipe ts c → Line us d → Line (ts ++ (List.replicate n .amp ++ .semi :: us)) (.list (Cmd.back^[n] c) d)

/-- `pipe ::= exec ['|' pipe]` -/
inductive Pipe : List Token → Cmd Str → Prop
  | exec {ts : List Token} {c : Cmd Str} : Exec ts c → Pipe ts c
  | pipe {ts us : List Token} {c d : Cmd Str} : Exec ts c → Pipe us d → Pipe (ts ++ .bar :: us) (.pipe c d)

/-- `exec ::= '(' line ')' redir* | redir* (word redir*)*`, with at most nine words -/
inductive Exec : List Token → Cmd Str → Prop
  | block {ts us : List Token} {c : Cmd Str} {rs : List (Token × Str)} :
      Line ts c → Redirs us rs → Exec (.lparen :: (ts ++ .rparen :: us)) (wrap rs c)
  | args {ts us : List Token} {ws : List Str} {rs rs' : List (Token × Str)} :
      Redirs ts rs → Words us ws rs' → ws.length ≤ 9 → Exec (ts ++ us) (wrap (rs ++ rs') (.exec ws))

end

/-! ## Trees with pointers and with strings -/

/-- Two trees of the same shape, with related strings. -/
inductive Cmd.Rel {α β : Type} (R : α → β → Prop) : Cmd α → Cmd β → Prop
  | exec {as : List α} {bs : List β} : List.Forall₂ R as bs → Rel R (.exec as) (.exec bs)
  | redir {c : Cmd α} {d : Cmd β} {a : α} {b : β} {mode fd : ℕ} :
      Rel R c d → R a b → Rel R (.redir c a mode fd) (.redir d b mode fd)
  | pipe {c c' : Cmd α} {d d' : Cmd β} : Rel R c d → Rel R c' d' → Rel R (.pipe c c') (.pipe d d')
  | list {c c' : Cmd α} {d d' : Cmd β} : Rel R c d → Rel R c' d' → Rel R (.list c c') (.list d d')
  | back {c : Cmd α} {d : Cmd β} : Rel R c d → Rel R (.back c) (.back d)

/-- The pointers of `c` hold the words of `d`. -/
abbrev Reads (line : Str) : Cmd Ptr → Cmd Str → Prop := Cmd.Rel fun p w => Span line p.1 p.2 w

section

variable {α β : Type} {R : α → β → Prop} {c : Cmd α} {d : Cmd β} {a : α} {b : β}

theorem Cmd.Rel.addArg (h : c.Rel R d) (hab : R a b) : (c.addArg a).Rel R (d.addArg b) := by
  induction h with
  | exec h => exact .exec (List.rel_append h (.cons hab .nil))
  | redir _ hfile ih => exact .redir ih hfile
  | pipe h h' => exact .pipe h h'
  | list h h' => exact .list h h'
  | back h => exact .back h

theorem Cmd.Rel.redircmd {tok : UInt8} (h : c.Rel R d) (hab : R a b) :
    (redircmd tok c a).Rel R (redircmd tok d b) := by
  simp only [Sh.redircmd]
  split_ifs
  · exact .redir h hab
  · exact .redir h hab
  · exact .redir h hab
  · exact h

end

theorem redircmd_addArg {t : Token} (ht : Redirect t) {c : Cmd Str} {a : Str} :
    (redircmd t.code c a).addArg w = redircmd t.code (c.addArg w) a := by
  rcases ht with rfl | rfl | rfl <;> rfl

/-- The words join the command inside the redirections. -/
theorem wrap_addArg (hrs : ∀ r ∈ rs, Redirect r.1) {c : Cmd Str} : (wrap rs c).addArg w = wrap rs (c.addArg w) := by
  induction rs generalizing c with
  | nil => rfl
  | cons r rs ih =>
    rw [wrap, List.foldl_cons]
    change (wrap rs _).addArg w = wrap rs _
    rw [ih fun r' hr' => hrs r' (List.mem_cons_of_mem _ hr'), redircmd_addArg (hrs r List.mem_cons_self)]

theorem wrap_append {rs' : List (Token × Str)} {c : Cmd Str} : wrap (rs ++ rs') c = wrap rs' (wrap rs c) :=
  List.foldl_append

theorem Redirs.redirect {ts : List Token} (h : Redirs ts rs) : ∀ r ∈ rs, Redirect r.1 := by
  induction h with
  | nil => simp
  | cons hop _ ih => exact List.forall_mem_cons.mpr ⟨hop, ih⟩

/-! ## Pointers and tokens -/

/-- The pointer `ps` stands before the tokens `ts`. -/
structure At (line : Str) (ps : ℕ) (ts : List Token) : Prop where
  le : ps ≤ line.length
  tokens : lex (line.drop ps) = ts

section

variable {line : Str} {ps : ℕ} {t : Token} {ts : List Token}

theorem At.peek (h : At line ps ts) (hline : 0 ∉ line) (toks : Str) (htoks : toks ⊆ symbols) :
    ∃ ps', At line ps' ts ∧
      peek (line ++ [0]) line.length ps toks = (decide (Starts toks ts), ps') := by
  obtain ⟨ps', hle, hlex, hpeek⟩ := peek_spec hline h.le htoks
  rw [h.tokens] at hpeek hlex
  exact ⟨ps', ⟨hle, hlex⟩, hpeek⟩

theorem At.gettoken (h : At line ps (t :: ts)) (hline : 0 ∉ line) :
    ∃ p ps', At line ps' ts ∧ gettoken (line ++ [0]) line.length ps = (t.code, p, ps') ∧
      ∀ w, t = .word w → Span line p.1 p.2 w := by
  obtain ⟨q, e, ps', hle, hget, hlex, hspan⟩ := gettoken_cons hline h.le h.tokens
  exact ⟨(q, e), ps', ⟨hle, hlex⟩, hget, hspan⟩

theorem At.gettoken_nil (h : At line ps []) :
    At line line.length [] ∧ ∃ p, Sh.gettoken (line ++ [0]) line.length ps = (0, p, line.length) :=
  ⟨⟨Nat.le_refl _, by rw [List.drop_length, lex]⟩, _, Sh.gettoken_nil h.le h.tokens⟩

theorem code_eq_word (h : t.code = 0x61) : ∃ w, t = .word w := by
  cases t with
  | word w => exact ⟨w, rfl⟩
  | _ => cases h

theorem code_ne_zero : t.code ≠ 0 := by
  cases t <;> exact of_decide_eq_false rfl

end

/-! ## What the parser takes is derived -/

/-- What a function of the parser makes of the tokens `ts` that are ahead: it takes some of them, for a tree
that `G` allows, or it panics. -/
def Parses (line : Str) (ts : List Token) (G : List Token → Cmd Str → Prop) : Except Err (Cmd Ptr × ℕ) → Prop
  | .ok (c, ps) => ∃ us rest d, ts = us ++ rest ∧ At line ps rest ∧ Reads line c d ∧ G us d
  | .error (.panic _) => True
  | .error .fuel => False

section

variable {line : Str} {ps fuel : ℕ} {t : Token} {ts us rest : List Token} {c : Cmd Ptr} {d : Cmd Str}
  {G H : List Token → Cmd Str → Prop} {x : Except Err (Cmd Ptr × ℕ)}

theorem Parses.done (h : At line ps ts) (hc : Reads line c d) (hG : G [] d) : Parses line ts G (.ok (c, ps)) :=
  ⟨[], ts, d, rfl, h, hc, hG⟩

/-- Tokens that were taken before. -/
theorem Parses.after (us : List Token) (h : Parses line rest G x) (hG : ∀ vs d, G vs d → H (us ++ vs) d) :
    Parses line (us ++ rest) H x :=
  match x, h with
  | .ok _, ⟨vs, rest', d, hrest, hat, hc, hd⟩ =>
    ⟨us ++ vs, rest', d, by rw [hrest, List.append_assoc], hat, hc, hG vs d hd⟩
  | .error (.panic _), _ => trivial

theorem Parses.bind {f : Cmd Ptr × ℕ → Except Err (Cmd Ptr × ℕ)} (h : Parses line ts G x)
    (hf : ∀ c ps us rest d, ts = us ++ rest → At line ps rest → Reads line c d → G us d →
      Parses line ts H (f (c, ps))) : Parses line ts H (x >>= f) :=
  match x, h with
  | .ok (c, ps), ⟨us, rest, d, hts, hat, hc, hG⟩ => hf c ps us rest d hts hat hc hG
  | .error (.panic _), _ => trivial

theorem starts_redirect : Starts [LT, GT] ts ↔ ∃ t ts', ts = t :: ts' ∧ Redirect t := by
  cases ts with
  | nil => simp [Starts]
  | cons t ts => cases t <;> simp [Starts, Token.first, Token.code, Redirect] <;> decide

theorem starts_single (ht : t = .bar ∨ t = .rparen ∨ t = .amp ∨ t = .semi ∨ t = .lparen) :
    Starts [t.code] ts ↔ ∃ ts', ts = t :: ts' := by
  cases ts with
  | nil => simp [Starts]
  | cons t' ts =>
    rcases ht with rfl | rfl | rfl | rfl | rfl <;> cases t' <;>
      simp [Starts, Token.first, Token.code] <;> decide

/-- Another token is next, or none. -/
theorem At.peek_not (h : At line ps ts) (hline : 0 ∉ line) (toks : Str) (htoks : toks ⊆ symbols)
    (hno : ¬ Starts toks ts) : ∃ ps', Sh.peek (line ++ [0]) line.length ps toks = (false, ps') ∧ At line ps' ts := by
  obtain ⟨ps', h', hpeek⟩ := h.peek hline toks htoks
  rw [decide_eq_false hno] at hpeek
  exact ⟨ps', hpeek, h'⟩

/-- The token `t` is next: `peek` sees it and `gettoken` takes it. -/
theorem At.peek_gettoken (h : At line ps (t :: ts)) (hline : 0 ∉ line) (toks : Str) (htoks : toks ⊆ symbols)
    (hmore : Starts toks (t :: ts)) :
    ∃ p ps₁ ps₂, Sh.peek (line ++ [0]) line.length ps toks = (true, ps₁) ∧
      Sh.gettoken (line ++ [0]) line.length ps₁ = (t.code, p, ps₂) ∧ At line ps₂ ts := by
  obtain ⟨ps₁, h₁, hpeek⟩ := h.peek hline toks htoks
  obtain ⟨p, ps₂, h₂, hget, -⟩ := h₁.gettoken hline
  rw [decide_eq_true hmore] at hpeek
  exact ⟨p, ps₁, ps₂, hpeek, hget, h₂⟩

/-- A single token is next, or it is not. -/
theorem At.peek_single (h : At line ps ts) (hline : 0 ∉ line) (t : Token) (toks : Str)
    (ht : t = .bar ∨ t = .rparen ∨ t = .amp ∨ t = .semi ∨ t = .lparen) (htoks : [t.code] = toks) :
    (∃ us p ps₁ ps₂, ts = t :: us ∧ Sh.peek (line ++ [0]) line.length ps toks = (true, ps₁) ∧
      Sh.gettoken (line ++ [0]) line.length ps₁ = (t.code, p, ps₂) ∧ At line ps₂ us) ∨
    ∃ ps₁, Sh.peek (line ++ [0]) line.length ps toks = (false, ps₁) ∧ At line ps₁ ts := by
  have hsub : toks ⊆ symbols := by
    subst htoks
    rcases ht with rfl | rfl | rfl | rfl | rfl <;> decide
  by_cases hmore : Starts toks ts
  · obtain ⟨us, rfl⟩ := (starts_single ht).mp (htoks ▸ hmore)
    obtain ⟨p, ps₁, ps₂, h'⟩ := h.peek_gettoken hline toks hsub hmore
    exact .inl ⟨us, p, ps₁, ps₂, rfl, h'⟩
  · exact .inr (h.peek_not hline toks hsub hmore)

theorem parseredirs_sound (hline : 0 ∉ line) (h : At line ps ts) (hc : Reads line c d) (hfuel : ts.length < fuel) :
    Parses line ts (fun us e => ∃ rs, Redirs us rs ∧ e = wrap rs d)
      (parseredirs (line ++ [0]) line.length fuel c ps) := by
  induction fuel generalizing ps ts c d with
  | zero => omega
  | succ fuel ih =>
    obtain ⟨ps₁, h₁, hpeek⟩ := h.peek hline [LT, GT] (by decide)
    simp only [parseredirs, hpeek]
    by_cases hmore : Starts [LT, GT] ts
    · obtain ⟨op, ts, rfl, hop⟩ := starts_redirect.mp hmore
      obtain ⟨p, ps₂, h₂, hget, -⟩ := h₁.gettoken hline
      simp only [hmore, decide_true, if_true, hget]
      cases ts with
      | nil =>
        obtain ⟨-, p', hget'⟩ := h₂.gettoken_nil
        simp only [hget']
        exact trivial
      | cons t ts =>
        obtain ⟨p', ps₃, h₃, hget', hspan⟩ := h₂.gettoken hline
        simp only [hget']
        split_ifs with hword
        · exact trivial
        · obtain ⟨w, rfl⟩ := code_eq_word (not_not.mp hword)
          refine .after [op, .word w] (ih h₃ (hc.redircmd (hspan w rfl)) (by simp at hfuel ⊢; omega)) ?_
          rintro vs _ ⟨rs, hrs, rfl⟩
          exact ⟨(op, w) :: rs, .cons hop hrs, rfl⟩
    · simp only [hmore, decide_false]
      exact .done h₁ hc ⟨[], .nil, rfl⟩

theorem parseargs_sound {ws : List Str} (hline : 0 ∉ line) (h : At line ps ts)
    (hc : Reads line c (wrap rs (.exec ws))) (hrs : ∀ r ∈ rs, Redirect r.1) (hws : ws.length ≤ 9)
    (hfuel : ts.length < fuel) :
    Parses line ts (fun us e => ∃ ws' rs', Words us ws' rs' ∧ (ws ++ ws').length ≤ 9 ∧
        e = wrap (rs ++ rs') (.exec (ws ++ ws')))
      (parseargs (line ++ [0]) line.length fuel ws.length c ps) := by
  induction fuel generalizing ps ts c ws rs with
  | zero => omega
  | succ fuel ih =>
    have hnil : ∃ ws' rs', Words [] ws' rs' ∧ (ws ++ ws').length ≤ 9 ∧
        wrap rs (.exec ws) = wrap (rs ++ rs') (.exec (ws ++ ws')) :=
      ⟨[], [], .nil, by simpa using hws, by simp⟩
    obtain ⟨ps₁, h₁, hpeek⟩ := h.peek hline [BAR, RPAREN, AMP, SEMI] (by decide)
    simp only [parseargs, hpeek]
    by_cases hstop : Starts [BAR, RPAREN, AMP, SEMI] ts
    · simp only [hstop, decide_true, if_true]
      exact .done h₁ hc hnil
    simp only [hstop, decide_false, Bool.false_eq_true, if_false]
    cases ts with
    | nil =>
      obtain ⟨h₂, p, hget⟩ := h₁.gettoken_nil
      simp only [hget, if_true]
      exact .done h₂ hc hnil
    | cons t ts =>
      obtain ⟨p, ps₂, h₂, hget, hspan⟩ := h₁.gettoken hline
      simp only [hget, if_neg code_ne_zero]
      split_ifs with hword hmany
      · exact trivial
      · exact trivial
      · obtain ⟨w, rfl⟩ := code_eq_word (not_not.mp hword)
        have hadd : Reads line (c.addArg p) (wrap rs (.exec (ws ++ [w]))) := by
          have := hc.addArg (hspan w rfl)
          rwa [wrap_addArg hrs] at this
        refine .after [.word w] (Parses.bind (parseredirs_sound hline h₂ hadd (by simpa using hfuel)) ?_)
          fun _ _ => id
        rintro c' ps' us rest _ rfl hat hc' ⟨rs₁, hrs₁, rfl⟩
        rw [← wrap_append] at hc'
        have hlen : (ws ++ [w]).length = ws.length + 1 := by simp
        have hrec := ih hat hc' (fun r hr => (List.mem_append.mp hr).elim (hrs r) (hrs₁.redirect r))
          (by rw [hlen]; exact Nat.le_of_lt_succ (Nat.lt_of_not_le hmany)) (by simp at hfuel ⊢; omega)
        rw [hlen] at hrec
        refine .after us hrec ?_
        rintro vs _ ⟨ws', rs', hwords, hle, rfl⟩
        have hcons : Words (.word w :: (us ++ vs)) (w :: ws') (rs₁ ++ rs') := .cons hrs₁ hwords
        refine ⟨w :: ws', rs₁ ++ rs', hcons, by simpa using hle, ?_⟩
        rw [List.append_assoc rs, List.append_assoc ws, List.singleton_append]

theorem parseback_sound (hline : 0 ∉ line) (h : At line ps ts) (hc : Reads line c d) (hfuel : ts.length < fuel) :
    Parses line ts (fun us e => ∃ n, us = List.replicate n .amp ∧ e = Cmd.back^[n] d)
      (parseback (line ++ [0]) line.length fuel c ps) := by
  induction fuel generalizing ps ts c d with
  | zero => omega
  | succ fuel ih =>
    rw [parseback]
    rcases h.peek_single hline .amp [AMP] (by simp) rfl with ⟨ts, p, ps₁, ps₂, rfl, hpeek, hget, h₂⟩ | ⟨ps₁, hpeek, h₁⟩ <;>
      simp only [hpeek]
    · have hback : Reads line (.back c) (.back d) := .back hc
      simp only [if_true, hget]
      refine .after [.amp] (ih h₂ hback (by simpa using hfuel)) ?_
      rintro vs _ ⟨n, rfl, rfl⟩
      exact ⟨n + 1, rfl, rfl⟩
    · exact .done h₁ hc ⟨0, rfl, rfl⟩

/-- What the four functions that call each other do with the given fuel. -/
structure Sound (line : Str) (fuel : ℕ) : Prop where
  ofLine {ps : ℕ} {ts : List Token} : At line ps ts → 4 * ts.length + 4 ≤ fuel →
    Parses line ts Line (parseline (line ++ [0]) line.length fuel ps)
  ofPipe {ps : ℕ} {ts : List Token} : At line ps ts → 4 * ts.length + 3 ≤ fuel →
    Parses line ts Pipe (parsepipe (line ++ [0]) line.length fuel ps)
  ofExec {ps : ℕ} {ts : List Token} : At line ps ts → 4 * ts.length + 2 ≤ fuel →
    Parses line ts Exec (parseexec (line ++ [0]) line.length fuel ps)
  ofBlock {ps : ℕ} {ts : List Token} : At line ps ts → 4 * ts.length + 1 ≤ fuel →
    Parses line ts Exec (parseblock (line ++ [0]) line.length fuel ps)

theorem parseline_sound (ih : Sound line fuel) (hline : 0 ∉ line) (h : At line ps ts)
    (hfuel : 4 * ts.length + 4 ≤ fuel + 1) :
    Parses line ts Line (parseline (line ++ [0]) line.length (fuel + 1) ps) := by
  rw [parseline]
  refine Parses.bind (ih.ofPipe h (by omega)) ?_
  rintro c ps₁ us rest d rfl h₁ hc hpipe
  rw [List.length_append] at hfuel
  refine .after us (Parses.bind (parseback_sound hline h₁ hc (by omega)) ?_) fun _ _ => id
  rintro c ps₂ _ rest' _ rfl h₂ hc ⟨n, rfl, rfl⟩
  rw [List.length_append] at hfuel
  rcases h₂.peek_single hline .semi [SEMI] (by simp) rfl with ⟨rest', p, ps₃, ps₄, rfl, hpeek, hget, h₄⟩ | ⟨ps₃, hpeek, h₃⟩ <;>
    simp only [hpeek]
  · simp only [if_true, hget]
    rw [List.length_cons] at hfuel
    rw [← List.singleton_append, ← List.append_assoc]
    refine .after _ (Parses.bind (ih.ofLine h₄ (by omega)) ?_) fun _ _ => id
    rintro right ps₅ vs rest'' e rfl h₅ hright hline'
    refine ⟨vs, rest'', .list (Cmd.back^[n] d) e, rfl, h₅, .list hc hright, ?_⟩
    simpa using Line.list n hpipe hline'
  · exact ⟨_, rest', _, rfl, h₃, hc, .pipe n hpipe⟩

theorem parsepipe_sound (ih : Sound line fuel) (hline : 0 ∉ line) (h : At line ps ts)
    (hfuel : 4 * ts.length + 3 ≤ fuel + 1) :
    Parses line ts Pipe (parsepipe (line ++ [0]) line.length (fuel + 1) ps) := by
  rw [parsepipe]
  refine Parses.bind (ih.ofExec h (by omega)) ?_
  rintro c ps₁ us rest d rfl h₁ hc hexec
  rw [List.length_append] at hfuel
  rcases h₁.peek_single hline .bar [BAR] (by simp) rfl with ⟨rest, p, ps₂, ps₃, rfl, hpeek, hget, h₃⟩ | ⟨ps₂, hpeek, h₂⟩ <;>
    simp only [hpeek]
  · simp only [if_true, hget]
    rw [List.length_cons] at hfuel
    rw [← List.singleton_append, ← List.append_assoc]
    refine .after _ (Parses.bind (ih.ofPipe h₃ (by omega)) ?_) fun _ _ => id
    rintro right ps₄ vs rest' e rfl h₄ hright hpipe
    refine ⟨vs, rest', .pipe d e, rfl, h₄, .pipe hc hright, ?_⟩
    simpa using Pipe.pipe hexec hpipe
  · exact ⟨us, rest, d, rfl, h₂, hc, .exec hexec⟩

theorem parseexec_sound (ih : Sound line fuel) (hline : 0 ∉ line) (h : At line ps ts)
    (hfuel : 4 * ts.length + 2 ≤ fuel + 1) :
    Parses line ts Exec (parseexec (line ++ [0]) line.length (fuel + 1) ps) := by
  obtain ⟨ps₁, h₁, hpeek⟩ := h.peek hline [LPAREN] (by decide)
  simp only [parseexec, hpeek]
  split_ifs with hblock
  · exact ih.ofBlock h₁ (by omega)
  · have hempty : Reads line (.exec []) (.exec []) := .exec .nil
    refine Parses.bind (parseredirs_sound hline h₁ hempty (by omega)) ?_
    rintro c ps₂ us rest _ rfl h₂ hc ⟨rs, hrs, rfl⟩
    rw [List.length_append] at hfuel
    have hargs := parseargs_sound hline h₂ hc hrs.redirect (Nat.zero_le _) (by omega : rest.length < fuel)
    refine .after us hargs ?_
    rintro vs _ ⟨ws, rs', hws, hle, rfl⟩
    exact .args hrs hws hle

theorem parseblock_sound (ih : Sound line fuel) (hline : 0 ∉ line) (h : At line ps ts)
    (hfuel : 4 * ts.length + 1 ≤ fuel + 1) :
    Parses line ts Exec (parseblock (line ++ [0]) line.length (fuel + 1) ps) := by
  rw [parseblock]
  rcases h.peek_single hline .lparen [LPAREN] (by simp) rfl with ⟨ts, p, ps₁, ps₂, rfl, hpeek, hget, h₂⟩ | ⟨ps₁, hpeek, -⟩ <;>
    simp only [hpeek]
  · simp only [Bool.not_true, Bool.false_eq_true, if_false, hget]
    rw [List.length_cons] at hfuel
    refine .after [.lparen] (Parses.bind (ih.ofLine h₂ (by omega)) ?_) fun _ _ => id
    rintro c ps₃ us rest d rfl h₃ hc hin
    rw [List.length_append] at hfuel
    rcases h₃.peek_single hline .rparen [RPAREN] (by simp) rfl with ⟨rest, p', ps₄, ps₅, rfl, hpeek', hget', h₅⟩ | ⟨ps₄, hpeek', -⟩ <;>
      simp only [hpeek']
    · simp only [Bool.not_true, Bool.false_eq_true, if_false, hget']
      rw [List.length_cons] at hfuel
      rw [← List.singleton_append, ← List.append_assoc]
      refine .after _ (parseredirs_sound hline h₅ hc (by omega)) ?_
      rintro vs _ ⟨rs, hrs, rfl⟩
      simpa using Exec.block hin hrs
    · exact trivial
  · exact trivial

theorem sound (hline : 0 ∉ line) (fuel : ℕ) : Sound line fuel := by
  induction fuel with
  | zero => exact ⟨by omega, by omega, by omega, by omega⟩
  | succ fuel ih =>
    exact ⟨parseline_sound ih hline, parsepipe_sound ih hline, parseexec_sound ih hline, parseblock_sound ih hline⟩

end

/-! ## What is derived is taken -/

/-- The parser succeeds with the tree of `d` and leaves the tokens `rest`. -/
def Takes (line : Str) (rest : List Token) (d : Cmd Str) (x : Except Err (Cmd Ptr × ℕ)) : Prop :=
  ∃ c ps, x = .ok (c, ps) ∧ At line ps rest ∧ Reads line c d

/-- The tokens end here, or go on with one of `toks`. -/
def Ends (toks : Str) (ts : List Token) : Prop := ts = [] ∨ Starts toks ts

section

variable {line toks toks' : Str} {ps fuel : ℕ} {t : Token} {ts us rest rest' : List Token} {c : Cmd Ptr} {d e : Cmd Str}
  {rs rs' : List (Token × Str)} {ws ws' : List Str} {x : Except Err (Cmd Ptr × ℕ)}

theorem Takes.bind {f : Cmd Ptr × ℕ → Except Err (Cmd Ptr × ℕ)} (h : Takes line rest d x)
    (hf : ∀ c ps, At line ps rest → Reads line c d → Takes line rest' e (f (c, ps))) :
    Takes line rest' e (x >>= f) := by
  obtain ⟨c, ps, rfl, hat, hc⟩ := h
  exact hf c ps hat hc

theorem Ends.mono (h : Ends toks ts) (hsub : toks ⊆ toks') : Ends toks' ts :=
  h.imp_right fun ⟨c, hc, hmem⟩ => ⟨c, hc, hsub hmem⟩

theorem Ends.not_starts (h : Ends toks ts) (hdisj : toks.all (· ∉ toks')) : ¬ Starts toks' ts := by
  rintro ⟨c, hc, hmem⟩
  rcases h with rfl | ⟨c', hc', hmem'⟩
  · cases hc
  · obtain rfl := Option.mem_unique hc hc'
    exact of_decide_eq_true (List.all_eq_true.mp hdisj c hmem') hmem

theorem not_starts_cons (h : t.first.all (· ∉ toks)) : ¬ Starts toks (t :: ts) := by
  rintro ⟨c, hc, hmem⟩
  have hfirst : t.first = some c := hc
  rw [hfirst] at h
  exact of_decide_eq_true h hmem

theorem parseredirs_complete (hline : 0 ∉ line) (hus : Redirs us rs) (hrest : ¬ Starts [LT, GT] rest)
    (h : At line ps (us ++ rest)) (hc : Reads line c d) (hfuel : (us ++ rest).length < fuel) :
    Takes line rest (wrap rs d) (parseredirs (line ++ [0]) line.length fuel c ps) := by
  induction fuel generalizing ps us rs c d with
  | zero => omega
  | succ fuel ih =>
    rw [parseredirs]
    cases hus with
    | nil =>
      obtain ⟨ps₁, hpeek, h₁⟩ := h.peek_not hline _ (by decide) hrest
      simp only [hpeek]
      exact ⟨c, ps₁, rfl, h₁, hc⟩
    | @cons op w us rs hop hus =>
      obtain ⟨p, ps₁, ps₂, hpeek, hget, h₂⟩ :=
        h.peek_gettoken hline [LT, GT] (by decide) (starts_redirect.mpr ⟨op, _, rfl, hop⟩)
      obtain ⟨p', ps₃, h₃, hget', hspan⟩ := h₂.gettoken hline
      simp only [hpeek, if_true, hget, hget']
      change Takes line rest (wrap rs (redircmd op.code d w)) _
      exact ih hus h₃ (hc.redircmd (hspan w rfl)) (by simp at hfuel ⊢; omega)

theorem Words.not_starts (hus : Words us ws rs) (hrest : Ends [BAR, RPAREN, AMP, SEMI] rest)
    (htoks : [BAR, RPAREN, AMP, SEMI].all (· ∉ toks)) : ¬ Starts toks (us ++ rest) := by
  cases hus with
  | nil => exact hrest.not_starts htoks
  | cons hts hus => exact not_starts_cons rfl

theorem parseargs_complete (hline : 0 ∉ line) (hus : Words us ws' rs') (hrest : Ends [BAR, RPAREN, AMP, SEMI] rest)
    (h : At line ps (us ++ rest)) (hc : Reads line c (wrap rs (.exec ws))) (hrs : ∀ r ∈ rs, Redirect r.1)
    (hws : (ws ++ ws').length ≤ 9) (hfuel : (us ++ rest).length < fuel) :
    Takes line rest (wrap (rs ++ rs') (.exec (ws ++ ws')))
      (parseargs (line ++ [0]) line.length fuel ws.length c ps) := by
  induction hus generalizing ps c fuel rs ws with
  | nil =>
    obtain ⟨fuel, rfl⟩ := Nat.exists_eq_add_one_of_ne_zero (by omega : fuel ≠ 0)
    obtain ⟨ps₁, h₁, hpeek⟩ := h.peek hline [BAR, RPAREN, AMP, SEMI] (by decide)
    rw [List.nil_append] at hpeek h₁
    rw [List.append_nil, List.append_nil]
    simp only [parseargs, hpeek]
    rcases hrest with rfl | hstop
    · obtain ⟨h₂, p, hget⟩ := h₁.gettoken_nil
      rw [if_neg (by simp [Starts])]
      simp only [hget, if_true]
      exact ⟨c, _, rfl, h₂, hc⟩
    · simp only [hstop, decide_true, if_true]
      exact ⟨c, ps₁, rfl, h₁, hc⟩
  | @cons w ts us ws' rs₁ rs₂ hts hus ih =>
    obtain ⟨fuel, rfl⟩ := Nat.exists_eq_add_one_of_ne_zero (by omega : fuel ≠ 0)
    obtain ⟨ps₁, h₁, hpeek⟩ := h.peek hline [BAR, RPAREN, AMP, SEMI] (by decide)
    have hgo : ¬ Starts [BAR, RPAREN, AMP, SEMI] (.word w :: (ts ++ us) ++ rest) := not_starts_cons rfl
    obtain ⟨p, ps₂, h₂, hget, hspan⟩ := h₁.gettoken hline
    have hmany : ¬ ws.length + 1 ≥ MAXARGS := by
      simp only [List.length_append, List.length_cons] at hws
      simp only [MAXARGS]
      omega
    have hadd : Reads line (c.addArg p) (wrap rs (.exec (ws ++ [w]))) := by
      have := hc.addArg (hspan w rfl)
      rwa [wrap_addArg hrs] at this
    have hword : ¬ (Token.word w).code ≠ 0x61 := not_not.mpr rfl
    simp only [parseargs, hpeek, hgo, decide_false, Bool.false_eq_true, if_false, hget, if_neg code_ne_zero,
      if_neg hword, if_neg hmany]
    change At line ps₂ (ts ++ us ++ rest) at h₂
    rw [List.append_assoc] at h₂
    refine (parseredirs_complete hline hts (hus.not_starts hrest (by decide)) h₂ hadd (by simp at hfuel ⊢; omega)).bind ?_
    intro c' ps₃ h₃ hc'
    rw [← wrap_append] at hc'
    have := ih h₃ hc' (fun r hr => (List.mem_append.mp hr).elim (hrs r) (hts.redirect r)) (by simpa using hws)
      (by simp at hfuel ⊢; omega : (us ++ rest).length < fuel)
    rw [List.append_assoc rs, List.append_assoc ws, List.singleton_append, List.length_append] at this
    exact this

theorem parseback_complete {n : ℕ} (hline : 0 ∉ line) (hrest : ¬ Starts [AMP] rest)
    (h : At line ps (List.replicate n .amp ++ rest)) (hc : Reads line c d)
    (hfuel : (List.replicate n Token.amp ++ rest).length < fuel) :
    Takes line rest (Cmd.back^[n] d) (parseback (line ++ [0]) line.length fuel c ps) := by
  induction fuel generalizing ps n c d with
  | zero => omega
  | succ fuel ih =>
    rw [parseback]
    cases n with
    | zero =>
      obtain ⟨ps₁, hpeek, h₁⟩ := h.peek_not hline _ (by decide) hrest
      simp only [hpeek]
      exact ⟨c, ps₁, rfl, h₁, hc⟩
    | succ n =>
      obtain ⟨p, ps₁, ps₂, hpeek, hget, h₂⟩ := At.peek_gettoken (t := .amp) h hline [AMP] (by decide) ⟨AMP, rfl, by decide⟩
      have hback : Reads line (.back c) (.back d) := .back hc
      simp only [hpeek, if_true, hget]
      change Takes line rest (Cmd.back^[n] (.back d)) _
      exact ih h₂ hback (by simp at hfuel ⊢; omega)

/-- The converse of `Sound`. -/
structure Complete (line : Str) (fuel : ℕ) : Prop where
  ofLine {ps : ℕ} {us rest : List Token} {d : Cmd Str} : Line us d → Ends [RPAREN] rest → At line ps (us ++ rest) →
    4 * (us ++ rest).length + 4 ≤ fuel → Takes line rest d (parseline (line ++ [0]) line.length fuel ps)
  ofPipe {ps : ℕ} {us rest : List Token} {d : Cmd Str} : Pipe us d → Ends [RPAREN, AMP, SEMI] rest →
    At line ps (us ++ rest) → 4 * (us ++ rest).length + 3 ≤ fuel →
    Takes line rest d (parsepipe (line ++ [0]) line.length fuel ps)
  ofExec {ps : ℕ} {us rest : List Token} {d : Cmd Str} : Exec us d → Ends [BAR, RPAREN, AMP, SEMI] rest →
    At line ps (us ++ rest) → 4 * (us ++ rest).length + 2 ≤ fuel →
    Takes line rest d (parseexec (line ++ [0]) line.length fuel ps)
  ofBlock {ps : ℕ} {ts us rest : List Token} {d : Cmd Str} {rs : List (Token × Str)} : Line ts d → Redirs us rs →
    Ends [BAR, RPAREN, AMP, SEMI] rest → At line ps (.lparen :: (ts ++ .rparen :: us) ++ rest) →
    4 * (.lparen :: (ts ++ .rparen :: us) ++ rest).length + 1 ≤ fuel →
    Takes line rest (wrap rs d) (parseblock (line ++ [0]) line.length fuel ps)

theorem ends_amps {n : ℕ} (hrest : Ends [RPAREN, SEMI] rest) :
    Ends [RPAREN, AMP, SEMI] (List.replicate n .amp ++ rest) := by
  cases n with
  | zero => exact hrest.mono (by decide)
  | succ n => exact .inr ⟨AMP, rfl, by decide⟩

theorem parseline_complete (ih : Complete line fuel) (hline : 0 ∉ line) (hus : Line us d) (hrest : Ends [RPAREN] rest)
    (h : At line ps (us ++ rest)) (hfuel : 4 * (us ++ rest).length + 4 ≤ fuel + 1) :
    Takes line rest d (parseline (line ++ [0]) line.length (fuel + 1) ps) := by
  rw [parseline]
  cases hus with
  | @pipe ts d n hpipe =>
    rw [List.append_assoc] at h hfuel
    refine (ih.ofPipe hpipe (ends_amps (hrest.mono (by decide))) h (by omega)).bind ?_
    intro c ps₁ h₁ hc
    rw [List.length_append] at hfuel
    refine (parseback_complete hline (hrest.not_starts (by decide)) h₁ hc (by omega)).bind ?_
    intro c ps₂ h₂ hc
    obtain ⟨ps₃, hpeek, h₃⟩ := h₂.peek_not hline [SEMI] (by decide) (hrest.not_starts (by decide))
    simp only [hpeek]
    exact ⟨c, ps₃, rfl, h₃, hc⟩
  | @list ts us d e n hpipe hright =>
    rw [List.append_assoc, List.append_assoc, List.cons_append] at h hfuel
    have hsemi : Ends [RPAREN, SEMI] (.semi :: (us ++ rest)) := .inr ⟨SEMI, rfl, by decide⟩
    refine (ih.ofPipe hpipe (ends_amps hsemi) h (by omega)).bind ?_
    intro c ps₁ h₁ hc
    rw [List.length_append] at hfuel
    refine (parseback_complete hline (not_starts_cons (by decide)) h₁ hc (by omega)).bind ?_
    intro c ps₂ h₂ hc
    obtain ⟨p, ps₃, ps₄, hpeek, hget, h₄⟩ := h₂.peek_gettoken hline [SEMI] (by decide) ⟨SEMI, rfl, by decide⟩
    simp only [hpeek, if_true, hget]
    rw [List.length_append, List.length_cons] at hfuel
    refine (ih.ofLine hright hrest h₄ (by omega)).bind ?_
    intro right ps₅ h₅ hc'
    exact ⟨_, ps₅, rfl, h₅, .list hc hc'⟩

theorem parsepipe_complete (ih : Complete line fuel) (hline : 0 ∉ line) (hus : Pipe us d)
    (hrest : Ends [RPAREN, AMP, SEMI] rest) (h : At line ps (us ++ rest))
    (hfuel : 4 * (us ++ rest).length + 3 ≤ fuel + 1) :
    Takes line rest d (parsepipe (line ++ [0]) line.length (fuel + 1) ps) := by
  rw [parsepipe]
  cases hus with
  | exec hexec =>
    refine (ih.ofExec hexec (hrest.mono (by decide)) h (by omega)).bind ?_
    intro c ps₁ h₁ hc
    obtain ⟨ps₂, hpeek, h₂⟩ := h₁.peek_not hline [BAR] (by decide) (hrest.not_starts (by decide))
    simp only [hpeek]
    exact ⟨c, ps₂, rfl, h₂, hc⟩
  | @pipe ts us d e hexec hright =>
    rw [List.append_assoc, List.cons_append] at h hfuel
    refine (ih.ofExec hexec (.inr ⟨BAR, rfl, by decide⟩) h (by omega)).bind ?_
    intro c ps₁ h₁ hc
    obtain ⟨p, ps₂, ps₃, hpeek, hget, h₃⟩ := h₁.peek_gettoken hline [BAR] (by decide) ⟨BAR, rfl, by decide⟩
    simp only [hpeek, if_true, hget]
    rw [List.length_append, List.length_cons] at hfuel
    refine (ih.ofPipe hright hrest h₃ (by omega)).bind ?_
    intro right ps₄ h₄ hc'
    exact ⟨_, ps₄, rfl, h₄, .pipe hc hc'⟩

theorem Redirs.not_starts_lparen (hts : Redirs ts rs) (hrest : ¬ Starts [LPAREN] rest) :
    ¬ Starts [LPAREN] (ts ++ rest) := by
  cases hts with
  | nil => exact hrest
  | cons hop hts => rcases hop with rfl | rfl | rfl <;> exact not_starts_cons (by decide)

theorem parseexec_complete (ih : Complete line fuel) (hline : 0 ∉ line) (hus : Exec us d)
    (hrest : Ends [BAR, RPAREN, AMP, SEMI] rest) (h : At line ps (us ++ rest))
    (hfuel : 4 * (us ++ rest).length + 2 ≤ fuel + 1) :
    Takes line rest d (parseexec (line ++ [0]) line.length (fuel + 1) ps) := by
  obtain ⟨ps₁, h₁, hpeek⟩ := h.peek hline [LPAREN] (by decide)
  simp only [parseexec, hpeek]
  cases hus with
  | @block ts us c rs hin hus =>
    have hblock : Starts [LPAREN] (.lparen :: (ts ++ .rparen :: us) ++ rest) := ⟨LPAREN, rfl, by decide⟩
    rw [if_pos (decide_eq_true hblock)]
    exact ih.ofBlock hin hus hrest h₁ (by omega)
  | @args ts us ws rs rs' hts hus hws =>
    rw [List.append_assoc] at h₁ hfuel ⊢
    have hblock : ¬ Starts [LPAREN] (ts ++ (us ++ rest)) :=
      hts.not_starts_lparen (hus.not_starts hrest (by decide))
    rw [if_neg (by simpa using hblock)]
    have hempty : Reads line (.exec []) (.exec []) := .exec .nil
    refine (parseredirs_complete hline hts (hus.not_starts hrest (by decide)) h₁ hempty (by omega)).bind ?_
    intro c ps₂ h₂ hc
    rw [List.length_append] at hfuel
    exact parseargs_complete hline hus hrest h₂ hc hts.redirect hws (by omega)

theorem parseblock_complete (ih : Complete line fuel) (hline : 0 ∉ line) (hts : Line ts d) (hus : Redirs us rs)
    (hrest : Ends [BAR, RPAREN, AMP, SEMI] rest) (h : At line ps (.lparen :: (ts ++ .rparen :: us) ++ rest))
    (hfuel : 4 * (.lparen :: (ts ++ .rparen :: us) ++ rest).length + 1 ≤ fuel + 1) :
    Takes line rest (wrap rs d) (parseblock (line ++ [0]) line.length (fuel + 1) ps) := by
  rw [List.cons_append, List.append_assoc, List.cons_append] at h hfuel
  obtain ⟨p, ps₁, ps₂, hpeek, hget, h₂⟩ := h.peek_gettoken hline [LPAREN] (by decide) ⟨LPAREN, rfl, by decide⟩
  simp only [parseblock, hpeek, Bool.not_true, Bool.false_eq_true, if_false, hget]
  rw [List.length_cons] at hfuel
  refine (ih.ofLine hts (.inr ⟨RPAREN, rfl, by decide⟩) h₂ (by omega)).bind ?_
  intro c ps₃ h₃ hc
  obtain ⟨p', ps₄, ps₅, hpeek', hget', h₅⟩ := h₃.peek_gettoken hline [RPAREN] (by decide) ⟨RPAREN, rfl, by decide⟩
  simp only [hpeek', Bool.not_true, Bool.false_eq_true, if_false, hget']
  rw [List.length_append, List.length_cons] at hfuel
  exact parseredirs_complete hline hus (hrest.not_starts (by decide)) h₅ hc (by omega)

theorem complete (hline : 0 ∉ line) (fuel : ℕ) : Complete line fuel := by
  induction fuel with
  | zero => exact ⟨by omega, by omega, by omega, by omega⟩
  | succ fuel ih =>
    exact ⟨parseline_complete ih hline, parsepipe_complete ih hline, parseexec_complete ih hline,
      parseblock_complete ih hline⟩

end

/-! ## The strings of the tree -/

/-- The string at `p`. -/
def cstr (m : Str) (p : ℕ) : Str := (m.drop p).takeWhile (· ≠ 0)

def Cmd.map {α β : Type} (f : α → β) : Cmd α → Cmd β
  | .exec argv => .exec (argv.map f)
  | .redir cmd file mode fd => .redir (cmd.map f) (f file) mode fd
  | .pipe left right => .pipe (left.map f) (right.map f)
  | .list left right => .list (left.map f) (right.map f)
  | .back cmd => .back (cmd.map f)

/-- The tree as `runcmd` reads it: with the strings that the pointers lead to. -/
def Cmd.view (m : Str) : Cmd Ptr → Cmd Str := Cmd.map fun p => cstr m p.1

/-- The ends of the strings. -/
def Cmd.ends : Cmd Ptr → List ℕ
  | .exec argv => argv.map Prod.snd
  | .redir cmd file _ _ => cmd.ends ++ [file.2]
  | .pipe left right => left.ends ++ right.ends
  | .list left right => left.ends ++ right.ends
  | .back cmd => cmd.ends

/-- The strings of the tree: every `argv[i]` and every file. -/
def Cmd.strings : Cmd Ptr → List Ptr
  | .exec argv => argv
  | .redir cmd file _ _ => cmd.strings ++ [file]
  | .pipe left right => left.strings ++ right.strings
  | .list left right => left.strings ++ right.strings
  | .back cmd => cmd.strings

section

variable {m line : Str} {k : ℕ} {c : Cmd Ptr} {d : Cmd Str} {p : Ptr}

theorem Cmd.ends_eq : c.ends = c.strings.map Prod.snd := by
  induction c with
  | exec argv => rfl
  | redir cmd file mode fd ih => rw [Cmd.ends, Cmd.strings, ih, List.map_append, List.map_singleton]
  | pipe left right ihl ihr => rw [Cmd.ends, Cmd.strings, ihl, ihr, List.map_append]
  | list left right ihl ihr => rw [Cmd.ends, Cmd.strings, ihl, ihr, List.map_append]
  | back cmd ih => exact ih

theorem getD_set {e : ℕ} : (m.set e 0).getD k 0 = if k = e then 0 else m.getD k 0 := by
  simp only [List.getD_eq_getElem?_getD, List.getElem?_set]
  rcases eq_or_ne e k with rfl | h
  · split_ifs <;> rfl
  · rw [if_neg h, if_neg (Ne.symm h)]

theorem getD_foldl_set {ps : List Ptr} :
    (ps.foldl (fun m p => m.set p.2 0) m).getD k 0 = if k ∈ ps.map Prod.snd then 0 else m.getD k 0 := by
  induction ps generalizing m with
  | nil => rfl
  | cons p ps ih =>
    rw [List.foldl_cons, ih, getD_set, List.map_cons]
    by_cases hk : k = p.2
    · simp [hk]
    · rw [if_neg hk]
      exact if_congr (by simp [hk]) rfl rfl

theorem getD_nulterminate : (nulterminate c m).getD k 0 = if k ∈ c.ends then 0 else m.getD k 0 := by
  induction c generalizing m with
  | exec argv => exact getD_foldl_set
  | redir cmd file mode fd ih =>
    rw [nulterminate, getD_set, ih, Cmd.ends]
    by_cases hk : k = file.2 <;> simp [hk]
  | pipe left right ihl ihr =>
    rw [nulterminate, ihr, ihl, Cmd.ends]
    by_cases hk : k ∈ right.ends <;> simp [hk]
  | list left right ihl ihr =>
    rw [nulterminate, ihr, ihl, Cmd.ends]
    by_cases hk : k ∈ right.ends <;> simp [hk]
  | back cmd ih => exact ih

theorem cstr_eq {q : ℕ} (hw : ∀ j < w.length, m.getD (q + j) 0 = w.getD j 0) (hz : 0 ∉ w)
    (hend : m.getD (q + w.length) 0 = 0) : cstr m q = w := by
  induction w generalizing q with
  | nil =>
    rw [cstr]
    cases hdrop : m.drop q with
    | nil => rfl
    | cons a s =>
      have ha : m.getD q 0 = a := by rw [List.getD_eq_getElem?_getD, ← List.head?_drop, hdrop]; rfl
      have ha' : a = 0 := ha ▸ hend
      rw [List.takeWhile_cons_of_neg (by simpa using ha')]
  | cons a w ih =>
    have ha : a ≠ 0 := fun h => hz (h ▸ List.mem_cons_self)
    have hq : m.getD q 0 = a := by simpa using hw 0 (by simp)
    obtain ⟨s, hdrop⟩ : ∃ s, m.drop q = a :: s := by
      cases hdrop : m.drop q with
      | nil =>
        rw [List.getD_eq_getElem?_getD, ← List.head?_drop, hdrop] at hq
        exact absurd hq.symm ha
      | cons b s =>
        rw [List.getD_eq_getElem?_getD, ← List.head?_drop, hdrop] at hq
        exact ⟨s, by rw [← hq]; rfl⟩
    have hnext : s = m.drop (q + 1) := by rw [← List.drop_drop, hdrop]; rfl
    rw [cstr, hdrop, List.takeWhile_cons_of_pos (by simpa using ha), hnext]
    refine congrArg (a :: ·) (ih (fun j hj => ?_) (fun h => hz (List.mem_cons_of_mem _ h)) ?_)
    · have := hw (j + 1) (by simpa using hj)
      rwa [← Nat.add_assoc, Nat.add_right_comm] at this
    · rwa [List.length_cons, ← Nat.add_assoc, Nat.add_right_comm] at hend

/-- No string is cut short by the end of another one. -/
theorem Span.apart {q e q' e' j : ℕ} {w' : Str} (h : Span line q e w) (h' : Span line q' e' w')
    (hj : j < w.length) : q + j ≠ e' := by
  obtain ⟨b, hdrop, -, -, hin, -⟩ := h
  obtain ⟨b', hdrop', rfl, -, -, hout⟩ := h'
  intro heq
  have hhead : (line.drop (q + j)).head? = some w[j] := by
    rw [← List.drop_drop, hdrop, List.head?_drop, List.getElem?_append_left hj, List.getElem?_eq_getElem hj]
  have hhead' : line.drop (q' + w'.length) = b' := by rw [← List.drop_drop, hdrop', List.drop_left]
  rw [heq, hhead'] at hhead
  exact hout _ hhead (hin _ (List.getElem_mem hj))

theorem Reads.span_of_mem (h : Reads line c d) (hp : p ∈ c.strings) : ∃ w, Span line p.1 p.2 w := by
  induction h with
  | @exec as bs h =>
    induction h with
    | nil => cases hp
    | cons hspan _ ih =>
      rcases List.mem_cons.mp hp with rfl | hp
      · exact ⟨_, hspan⟩
      · exact ih hp
  | redir _ hspan ih =>
    rcases List.mem_append.mp hp with hp | hp
    · exact ih hp
    · obtain rfl := List.mem_singleton.mp hp
      exact ⟨_, hspan⟩
  | pipe _ _ ih ih' => exact (List.mem_append.mp hp).elim ih ih'
  | list _ _ ih ih' => exact (List.mem_append.mp hp).elim ih ih'
  | back _ ih => exact ih hp

/-- The tree reads as `d` in a buffer where each of its strings is cut off in its place. -/
theorem Reads.view_eq (h : Reads line c d) (hm : ∀ (p : Ptr) w, Span line p.1 p.2 w → p.2 ∈ c.ends → cstr m p.1 = w) :
    c.view m = d := by
  induction h with
  | @exec as bs h =>
    refine congrArg Cmd.exec ?_
    induction h with
    | nil => rfl
    | @cons p w as bs hspan _ ih =>
      rw [List.map_cons, hm p w hspan (by simp [Cmd.ends])]
      exact congrArg (w :: ·) (ih fun p' w' hspan' hp' => hm p' w' hspan' (List.mem_cons_of_mem _ hp'))
  | @redir c d p w mode fd _ hspan ih =>
    have hrec := ih fun p' w' hspan' hp' => hm p' w' hspan' (List.mem_append_left _ hp')
    change Cmd.redir (c.view m) (cstr m p.1) mode fd = _
    rw [hrec, hm p w hspan (List.mem_append_right _ List.mem_cons_self)]
  | @pipe c c' d d' _ _ ih ih' =>
    change Cmd.pipe (c.view m) (c'.view m) = _
    rw [ih fun p' w' hspan' hp' => hm p' w' hspan' (List.mem_append_left _ hp'),
      ih' fun p' w' hspan' hp' => hm p' w' hspan' (List.mem_append_right _ hp')]
  | @list c c' d d' _ _ ih ih' =>
    change Cmd.list (c.view m) (c'.view m) = _
    rw [ih fun p' w' hspan' hp' => hm p' w' hspan' (List.mem_append_left _ hp'),
      ih' fun p' w' hspan' hp' => hm p' w' hspan' (List.mem_append_right _ hp')]
  | @back c d _ ih =>
    change Cmd.back (c.view m) = _
    rw [ih hm]

/-- After `nulterminate` a word that ends where a string ends is a string. -/
theorem Reads.cstr_nulterminate (hline : 0 ∉ line) (h : Reads line c d) (hspan : Span line p.1 p.2 w)
    (hmem : p.2 ∈ c.ends) : cstr (nulterminate c (line ++ [0])) p.1 = w := by
  obtain ⟨q, e⟩ := p
  dsimp only at hspan hmem ⊢
  obtain ⟨b, hdrop, rfl, -, -, -⟩ := id hspan
  refine cstr_eq (fun j hj => ?_) (fun hz => ?_) ?_
  · have hapart : q + j ∉ c.ends := by
      intro hin
      rw [Cmd.ends_eq] at hin
      obtain ⟨p', hp', heq⟩ := List.mem_map.mp hin
      obtain ⟨w', hspan'⟩ := h.span_of_mem hp'
      exact hspan.apart hspan' hj heq.symm
    rw [getD_nulterminate, if_neg hapart, getD_append_zero, ← List.drop_drop, hdrop, List.head?_drop,
      List.getElem?_append_left hj, List.getD_eq_getElem?_getD]
  · exact hline (List.mem_of_mem_drop (hdrop ▸ List.mem_append_left _ hz))
  · rw [getD_nulterminate, if_pos hmem]

/-- After `nulterminate` the pointers lead to the words. -/
theorem Reads.view_nulterminate (hline : 0 ∉ line) (h : Reads line c d) :
    c.view (nulterminate c (line ++ [0])) = d :=
  h.view_eq fun _ _ hspan hmem => h.cstr_nulterminate hline hspan hmem

end

theorem lex_length_le (s : Str) : (lex s).length ≤ s.length := by
  fun_induction lex s with
  | case1 => exact Nat.le_refl _
  | case2 c s hc ih => exact Nat.le_succ_of_le ih
  | case3 c s hc hgt ih =>
    have : s.tail.length ≤ s.length := by simp
    simp only [List.length_cons]
    omega
  | case4 c s hc hgt t hsym ih =>
    simp only [List.length_cons]
    omega
  | case5 c s hc hgt hsym ih =>
    have : (s.dropWhile inWord).length ≤ s.length := (List.dropWhile_suffix _).length_le
    simp only [List.length_cons]
    omega

/-- What `parsecmd` does once `parseline` is done: it succeeds just if no token is left. -/
theorem finish {ps : ℕ} {ts : List Token} (h : At line ps ts) :
    (peek (line ++ [0]) line.length ps []).2 = line.length ↔ ts = [] := by
  change skipWhite (line ++ [0]) line.length ps = line.length ↔ ts = []
  constructor
  · intro hend
    have := @lex_skipWhite line ps
    rw [hend, List.drop_length, lex, h.tokens] at this
    exact this.symm
  · rintro rfl
    exact skipWhite_of_lex_nil h.le h.tokens

theorem parsecmd_eq (hline : 0 ∉ line) :
    parsecmd (line ++ [0]) = do
      let (cmd, ps) ← parseline (line ++ [0]) line.length (4 * line.length + 4) 0
      if (peek (line ++ [0]) line.length ps []).2 ≠ line.length then .error (.panic "syntax")
      else return (cmd, nulterminate cmd (line ++ [0])) := by
  have hlen : ((line ++ [0]).takeWhile (· ≠ 0)).length = line.length := by
    rw [List.takeWhile_append_of_pos]
    · simp
    · simpa using fun c hc => ne_of_mem_of_not_mem hc hline
  rw [parsecmd, hlen]

theorem at_start : At line 0 (lex line) := ⟨Nat.zero_le _, by rw [List.drop_zero]⟩

/-- The tokens of the line are few enough for the fuel. -/
theorem fuel_line : 4 * (lex line).length + 4 ≤ 4 * line.length + 4 := by
  have := lex_length_le line
  omega

/-- What `parsecmd` returns is the tree of a derivation, with the words of the line as its strings. -/
theorem parsecmd_ok {m : Str} {c : Cmd Ptr} (hline : 0 ∉ line) (hok : parsecmd (line ++ [0]) = .ok (c, m)) :
    m = nulterminate c (line ++ [0]) ∧ ∃ d, Reads line c d ∧ Line (lex line) d := by
  have hsound := (sound hline _).ofLine at_start fuel_line
  rw [parsecmd_eq hline] at hok
  cases hres : parseline (line ++ [0]) line.length (4 * line.length + 4) 0 with
  | error e =>
    rw [hres] at hok
    cases hok
  | ok r =>
    obtain ⟨c', ps⟩ := r
    rw [hres] at hok hsound
    obtain ⟨us, rest, d, hts, hrest, hc, hd⟩ := hsound
    change (if _ then _ else _) = _ at hok
    split_ifs at hok with hend
    obtain rfl := (finish hrest).mp (not_not.mp hend)
    cases hok
    rw [List.append_nil] at hts
    exact ⟨rfl, d, hc, hts ▸ hd⟩

/-- `parsecmd` returns on every line. It succeeds just if the grammar derives the tokens of the line, and
its tree is the only one that they have. -/
theorem parsecmd_derives (line : Str) (hline : 0 ∉ line) :
    parsecmd (line ++ [0]) ≠ .error .fuel ∧
    (∀ d, (∃ c m, parsecmd (line ++ [0]) = .ok (c, m) ∧ c.view m = d) ↔ Line (lex line) d) ∧
    ∀ d d', Line (lex line) d → Line (lex line) d' → d = d' := by
  have hderives : ∀ d, (∃ c m, parsecmd (line ++ [0]) = .ok (c, m) ∧ c.view m = d) ↔ Line (lex line) d := by
    intro d
    constructor
    · rintro ⟨c, m, hok, rfl⟩
      obtain ⟨rfl, d, hc, hd⟩ := parsecmd_ok hline hok
      rwa [hc.view_nulterminate hline]
    · intro hd
      have hat : At line 0 (lex line ++ []) := (List.append_nil (lex line)).symm ▸ at_start
      have hfuel : 4 * (lex line ++ []).length + 4 ≤ 4 * line.length + 4 := by
        rw [List.append_nil]
        exact fuel_line
      obtain ⟨c, ps, hok, hend, hc⟩ := (complete hline _).ofLine hd (.inl rfl) hat hfuel
      refine ⟨c, _, ?_, hc.view_nulterminate hline⟩
      rw [parsecmd_eq hline, hok]
      exact if_neg (not_not.mpr ((finish hend).mpr rfl))
  refine ⟨?_, hderives, fun d d' hd hd' => ?_⟩
  · intro hfail
    have hsound := (sound hline _).ofLine at_start (@fuel_line line)
    rw [parsecmd_eq hline] at hfail
    cases hres : parseline (line ++ [0]) line.length (4 * line.length + 4) 0 with
    | error e =>
      rw [hres] at hfail hsound
      cases hfail
      exact hsound
    | ok r =>
      rw [hres] at hfail
      change (if _ then _ else _) = _ at hfail
      split_ifs at hfail <;> cases hfail
  · obtain ⟨c, m, hok, rfl⟩ := (hderives d).mpr hd
    obtain ⟨c', m', hok', rfl⟩ := (hderives d').mpr hd'
    rw [hok] at hok'
    cases hok'
    rfl

/-- The line `a>b`. -/
theorem parsecmd_derives_redirect : Line (lex [0x61, GT, 0x62]) (.redir (.exec [[0x61]]) [0x62] 0x201 1) := by
  have hrun : (parsecmd [0x61, GT, 0x62, 0]).map (fun r => r.1.view r.2) =
      .ok (.redir (.exec [[0x61]]) [0x62] 0x201 1) := by decide +kernel
  refine ((parsecmd_derives [0x61, GT, 0x62] (by decide)).2.1 _).mp ?_
  cases hcmd : parsecmd [0x61, GT, 0x62, 0] with
  | error e =>
    rw [hcmd] at hrun
    cases hrun
  | ok r =>
    rw [hcmd] at hrun
    exact ⟨r.1, r.2, hcmd, Except.ok.inj hrun⟩

example :
    (parsecmd [0x28, 0x61, 0x29, GT, GT, 0x62, AMP, 0]).map (fun r => r.1.view r.2) =
      .ok (.back (.redir (.exec [[0x61]]) [0x62] 0x201 1)) := by
  decide +kernel

/-! ## The strings in the buffer -/

/-- On a word of the line `gettoken` finds that word. -/
theorem gettoken_span {q e : ℕ} (hline : 0 ∉ line) (h : Span line q e w) :
    gettoken (line ++ [0]) line.length q = (0x61, (q, e), skipWhite (line ++ [0]) line.length e) := by
  obtain ⟨b, hdrop, rfl, hne, hin, hout⟩ := h
  obtain ⟨a, w, rfl⟩ := List.exists_cons_of_ne_nil hne
  have ha : a ∉ whitespace ∧ a ∉ symbols := by simpa [inWord] using hin a List.mem_cons_self
  have hstart : skipWhite (line ++ [0]) line.length q = q := by
    rw [skipWhite, advance_eq, hdrop, List.cons_append, List.takeWhile_cons_of_neg (by simpa [white] using ha.1)]
    rfl
  have hword : (a :: (w ++ b)).takeWhile inWord = a :: w := by
    rw [← List.cons_append, List.takeWhile_append_of_pos hin]
    cases b with
    | nil => simp
    | cons c b => simp [List.takeWhile_cons_of_neg (hout c rfl)]
  have hz : a ≠ 0 := by
    rintro rfl
    exact hline (List.mem_of_mem_drop (i := q) (by rw [hdrop]; exact List.mem_cons_self))
  have hsym : a ∉ [BAR, LPAREN, RPAREN, SEMI, AMP, LT] ∧ a ≠ GT := by
    have := ha.2
    simp only [symbols, List.mem_cons, not_or, List.not_mem_nil] at this ⊢
    tauto
  have hget := @gettoken_eq line q a (w ++ b) _ hz (by rw [hstart, hdrop]; rfl) rfl
  rwa [if_neg hsym.1, if_neg hsym.2, hstart, hword] at hget

/-- After `parsecmd` every string of the tree is the text of its token in the line: no terminator falls
inside another token, and nothing but terminators has been written. -/
theorem strings_exact (line : Str) (hline : 0 ∉ line) (c : Cmd Ptr) (m : Str)
    (hok : parsecmd (line ++ [0]) = .ok (c, m)) :
    (∀ p ∈ c.strings, (∃ ps, gettoken (line ++ [0]) line.length p.1 = (0x61, p, ps)) ∧
      cstr m p.1 = (line.drop p.1).take (p.2 - p.1) ∧ ∀ p' ∈ c.strings, ¬(p.1 ≤ p'.2 ∧ p'.2 < p.2)) ∧
    ∀ k, k ∉ c.strings.map Prod.snd → m.getD k 0 = (line ++ [0]).getD k 0 := by
  obtain ⟨rfl, d, hc, -⟩ := parsecmd_ok hline hok
  refine ⟨fun p hp => ?_, fun k hk => ?_⟩
  · obtain ⟨w, hspan⟩ := hc.span_of_mem hp
    have hend : p.2 ∈ c.ends := Cmd.ends_eq ▸ List.mem_map_of_mem hp
    obtain ⟨b, hdrop, hlen, -⟩ := id hspan
    refine ⟨⟨_, gettoken_span hline hspan⟩, ?_, fun p' hp' => ?_⟩
    · rw [hc.cstr_nulterminate hline hspan hend, hdrop, hlen, Nat.add_sub_cancel_left, List.take_left]
    · rintro ⟨hle, hlt⟩
      obtain ⟨w', hspan'⟩ := hc.span_of_mem hp'
      exact hspan.apart (j := p'.2 - p.1) hspan' (by omega) (by omega)
  · rw [← Cmd.ends_eq] at hk
    rw [getD_nulterminate, if_neg hk]

/-- The line `a>b`: the terminator of `a` overwrites the operator. -/
theorem strings_exact_redirect : ∃ c m, parsecmd [0x61, GT, 0x62, 0] = .ok (c, m) ∧
    c.strings = [(0, 1), (2, 3)] ∧ m = [0x61, 0, 0x62, 0] ∧ cstr m 0 = [0x61] ∧ cstr m 2 = [0x62] := by
  have hok : parsecmd [0x61, GT, 0x62, 0] = .ok (.redir (.exec [(0, 1)]) (2, 3) 0x201 1, [0x61, 0, 0x62, 0]) := by
    decide +kernel
  have h := (strings_exact [0x61, GT, 0x62] (by decide) _ _ hok).1
  exact ⟨_, _, hok, rfl, rfl, (h (0, 1) (by decide)).2.1, (h (2, 3) (by decide)).2.1⟩

end Xv6.Sh
