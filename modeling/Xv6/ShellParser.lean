import Xv6.ShellTokens
import Mathlib.Data.List.TakeWhile

/-!
# The shell's parser

`parseline`, `parsepipe`, `parseredirs`, `parseblock` and `parseexec` of `sh.c`, which share one
cursor. A parse ends with a tree and a new cursor or with a panic, whose text is what the shell
prints. The functions take a bound on the depth of calls and the rounds of their loops; `stuck` is a
parse that has passed it.

The words of a tree are pairs of pointers into the command string until `nulterminate` has made them
strings.
-/
namespace Xv6.Shell
open List

def MAXARGS : ℕ := 10

def O_RDONLY : ℕ := 0x000

def O_WRONLY : ℕ := 0x001

def O_CREATE : ℕ := 0x200

inductive Cmd (ω : Type) where
  | exec (argv : List ω)
  | redir (cmd : Cmd ω) (file : ω) (mode fd : ℕ)
  | pipe (left right : Cmd ω)
  | list (left right : Cmd ω)
  | back (cmd : Cmd ω)
  deriving DecidableEq

section
variable {ω ω' : Type}

def Cmd.map (f : ω → ω') : Cmd ω → Cmd ω'
  | .exec argv => .exec (argv.map f)
  | .redir cmd file mode fd => .redir (cmd.map f) (f file) mode fd
  | .pipe left right => .pipe (left.map f) (right.map f)
  | .list left right => .list (left.map f) (right.map f)
  | .back cmd => .back (cmd.map f)

def Cmd.words : Cmd ω → List ω
  | .exec argv => argv
  | .redir cmd file _ _ => cmd.words++[file]
  | .pipe left right => left.words++right.words
  | .list left right => left.words++right.words
  | .back cmd => cmd.words

/-- Do all simple commands fit into `argv`, with its last place for the null pointer? -/
def Cmd.short : Cmd ω → Bool
  | .exec argv => argv.length < MAXARGS
  | .redir cmd _ _ _ => cmd.short
  | .pipe left right => left.short && right.short
  | .list left right => left.short && right.short
  | .back cmd => cmd.short

/-- Store an argument in the simple command inside the redirections, which `parseexec` keeps
a pointer to. -/
def Cmd.addArg (w : ω) : Cmd ω → Cmd ω
  | .exec argv => .exec (argv++[w])
  | .redir cmd file mode fd => .redir (cmd.addArg w) file mode fd
  | cmd => cmd

/-- The node that `parseredirs` makes for a result of `gettoken`. -/
def Cmd.redirect (cmd : Cmd ω) (tok : Char) (w : ω) : Cmd ω :=
  if tok = '<' then .redir cmd w O_RDONLY 0
  else if tok = '>' then .redir cmd w (O_WRONLY ||| O_CREATE) 1
  else if tok = '+' then .redir cmd w (O_WRONLY ||| O_CREATE) 1
  else cmd

end

abbrev Parse (α : Type) := ExceptT String Option α

def stuck {α : Type} : Parse α := ExceptT.mk none

def panic {α : Type} (s : String) : Parse α := throw (s++"\n")

abbrev Span := ℕ × ℕ

section
variable (cs : List Char)

def parseredirs : ℕ → Cmd Span → ℕ → Parse (Cmd Span × ℕ)
  | 0,_,_ => stuck
  | n+1,cmd,s =>
    let (s,more) := peek cs s ['<','>']
    if more then
      let tok := gettoken cs s
      let file := gettoken cs tok.ps
      if file.ret ≠ 'a' then panic "missing file for redirection"
      else parseredirs n (cmd.redirect tok.ret (file.q,file.eq)) file.ps
    else pure (cmd,s)

/-- The loop of `parseexec`; the arguments so far are counted. -/
def parseargs : ℕ → Cmd Span → ℕ → ℕ → Parse (Cmd Span × ℕ)
  | 0,_,_,_ => stuck
  | n+1,ret,argc,s =>
    let (s,stop) := peek cs s ['|',')','&',';']
    if stop then pure (ret,s)
    else
      let g := gettoken cs s
      if g.ret = NUL then pure (ret,g.ps)
      else if g.ret ≠ 'a' then panic "syntax"
      else if MAXARGS ≤ argc+1 then panic "too many args"
      else do
        let (ret,s) ← parseredirs cs n (ret.addArg (g.q,g.eq)) g.ps
        parseargs n ret (argc+1) s

/-- The loop of `parseline` over the ampersands. -/
def parsebacks : ℕ → Cmd Span → ℕ → Parse (Cmd Span × ℕ)
  | 0,_,_ => stuck
  | n+1,cmd,s =>
    let (s,more) := peek cs s ['&']
    if more then parsebacks n (.back cmd) (gettoken cs s).ps
    else pure (cmd,s)

mutual

def parseline : ℕ → ℕ → Parse (Cmd Span × ℕ)
  | 0,_ => stuck
  | n+1,s => do
      let (cmd,s) ← parsepipe n s
      let (cmd,s) ← parsebacks cs n cmd s
      let (s,more) := peek cs s [';']
      if more then
        let (right,s) ← parseline n (gettoken cs s).ps
        pure (.list cmd right,s)
      else pure (cmd,s)

def parsepipe : ℕ → ℕ → Parse (Cmd Span × ℕ)
  | 0,_ => stuck
  | n+1,s => do
      let (cmd,s) ← parseexec n s
      let (s,more) := peek cs s ['|']
      if more then
        let (right,s) ← parsepipe n (gettoken cs s).ps
        pure (.pipe cmd right,s)
      else pure (cmd,s)

def parseblock : ℕ → ℕ → Parse (Cmd Span × ℕ)
  | 0,_ => stuck
  | n+1,s =>
    let (s,left) := peek cs s ['(']
    if ¬left then panic "parseblock"
    else do
      let (cmd,s) ← parseline n (gettoken cs s).ps
      let (s,right) := peek cs s [')']
      if ¬right then panic "syntax - missing )"
      else parseredirs cs n cmd (gettoken cs s).ps

def parseexec : ℕ → ℕ → Parse (Cmd Span × ℕ)
  | 0,_ => stuck
  | n+1,s =>
    let (s,block) := peek cs s ['(']
    if block then parseblock n s
    else do
      let (ret,s) ← parseredirs cs n (.exec []) s
      parseargs cs n ret 0 s

end

end

def nulterminate : Cmd Span → List Char → List Char
  | .exec argv,buf => argv.foldl (fun buf w => buf.set w.2 NUL) buf
  | .redir cmd file _ _,buf => (nulterminate cmd buf).set file.2 NUL
  | .pipe left right,buf => nulterminate right (nulterminate left buf)
  | .list left right,buf => nulterminate right (nulterminate left buf)
  | .back cmd,buf => nulterminate cmd buf

def cstring (buf : List Char) : List Char := buf.takeWhile (· ≠ NUL)

/-- The tree and the buffer it points into; a zero stands behind the characters of `buf`. -/
def parsecmd (n : ℕ) (buf : List Char) : Parse (Cmd Span × List Char) := do
  let cs := cstring buf
  let (cmd,s) ← parseline cs n 0
  let (s,_) := peek cs s []
  if s ≠ cs.length then
    throw ("leftovers: "++String.ofList (cs.drop s)++"\n"++"syntax\n")
  else pure (cmd,nulterminate cmd (buf++[NUL]))

/-- The command as `runcmd` reads it from the buffer. -/
def strings (r : Cmd Span × List Char) : Cmd (List Char) := r.1.map fun w => cstring (r.2.drop w.1)

/-! ## The grammar -/

/-- A redirection: the result of `gettoken` for its symbol, and the file. -/
abbrev Redir (ω : Type) := Char × ω

def Redir.Valid {ω : Type} (r : Redir ω) : Prop := r.1 ∈ ['<','>','+']

def redirTokens (rs : List (Redir (List Char))) : List Token :=
  rs.flatMap fun r => [.sym r.1,.word r.2]

def Cmd.redirects {ω : Type} (cmd : Cmd ω) (rs : List (Redir ω)) : Cmd ω :=
  rs.foldl (fun cmd r => cmd.redirect r.1 r.2) cmd

abbrev Args (ω : Type) := List (ω × List (Redir ω))

def argTokens (args : Args (List Char)) : List Token :=
  args.flatMap fun a => .word a.1::redirTokens a.2

def Cmd.arguments {ω : Type} (cmd : Cmd ω) (args : Args ω) : Cmd ω :=
  args.foldl (fun cmd a => (cmd.addArg a.1).redirects a.2) cmd

def ampersands (k : ℕ) : List Token := replicate k (.sym '&')

inductive Nonterminal where
  | line | pipe | exec

/-- The derivations of the grammar

`line ::= pipe '&'* [';' line]`, `pipe ::= exec ['|' pipe]`,
`exec ::= '(' line ')' redir* | redir* (word redir*)*`, `redir ::= ('<' | '>' | '>>') word`

with their trees. -/
inductive Derives : Nonterminal → List Token → Cmd (List Char) → Prop
  | line {u t} (k : ℕ) : Derives .pipe u t → Derives .line (u++ampersands k) (Cmd.back^[k] t)
  | seq {u v t t'} (k : ℕ) : Derives .pipe u t → Derives .line v t' →
      Derives .line (u++(ampersands k++.sym ';'::v)) (.list (Cmd.back^[k] t) t')
  | pipe {u t} : Derives .exec u t → Derives .pipe u t
  | bar {u v t t'} : Derives .exec u t → Derives .pipe v t' → Derives .pipe (u++.sym '|'::v) (.pipe t t')
  | block {u t rs} : Derives .line u t → (∀ r ∈ rs, r.Valid) →
      Derives .exec (.sym '('::u++.sym ')'::redirTokens rs) (t.redirects rs)
  | simple {rs args} : (∀ r ∈ rs, r.Valid) → (∀ a ∈ args, ∀ r ∈ a.2, r.Valid) →
      Derives .exec (redirTokens rs++argTokens args) (((Cmd.exec []).redirects rs).arguments args)

/-! ## What the parser accepts -/

section
variable {α β : Type} {x : Parse α} {f : α → Parse β} {b : β} {a : α}

theorem bind_eq_pure (h : x >>= f = pure b) : ∃ a, x = pure a ∧ f a = pure b := by
  rcases x with _ | ⟨e | a⟩
  · cases h
  · cases h
  · exact ⟨a,rfl,h⟩

theorem bind_eq_stuck (h : x >>= f = stuck) : x = stuck ∨ ∃ a, x = pure a ∧ f a = stuck := by
  rcases x with _ | ⟨e | a⟩
  · exact .inl rfl
  · cases h
  · exact .inr ⟨a,rfl,h⟩

theorem pure_bind_parse (a : α) (f : α → Parse β) : (pure a : Parse α) >>= f = f a := rfl

theorem pure_ne_stuck : (pure a : Parse α) ≠ stuck := fun h => nomatch h

theorem panic_ne_pure {s : String} : (panic s : Parse α) ≠ pure a := fun h => nomatch h

theorem panic_ne_stuck {s : String} : (panic s : Parse α) ≠ stuck := fun h => nomatch h

theorem pure_inj {b : α} (h : (pure a : Parse α) = pure b) : a = b := by
  cases h
  rfl

end

section
variable {ω ω' : Type} {cmd : Cmd ω} {w : ω} {k : ℕ} {p : ω → Prop}

def Cmd.argc : Cmd ω → Option ℕ
  | .exec argv => some argv.length
  | .redir cmd _ _ _ => cmd.argc
  | _ => none

theorem Cmd.argc_redirect (tok : Char) : (cmd.redirect tok w).argc = cmd.argc := by
  unfold Cmd.redirect
  split_ifs <;> rfl

theorem Cmd.argc_redirects (rs : List (Redir ω)) : (cmd.redirects rs).argc = cmd.argc := by
  induction rs generalizing cmd with
  | nil => rfl
  | cons r rs ih => exact ih.trans (Cmd.argc_redirect r.1)

theorem Cmd.argc_addArg (h : cmd.argc = some k) : (cmd.addArg w).argc = some (k+1) := by
  induction cmd with
  | exec =>
    cases h
    simp [Cmd.addArg,Cmd.argc]
  | redir cmd file mode fd ih => exact ih h
  | pipe | list | back => cases h

theorem Cmd.short_of_argc (h : cmd.argc = some k) : cmd.short ↔ k < MAXARGS := by
  induction cmd with
  | exec =>
    cases h
    simp [Cmd.short]
  | redir cmd file mode fd ih => exact ih h
  | pipe | list | back => cases h

theorem Cmd.short_redirect (tok : Char) : (cmd.redirect tok w).short = cmd.short := by
  unfold Cmd.redirect
  split_ifs <;> rfl

theorem Cmd.short_redirects (rs : List (Redir ω)) : (cmd.redirects rs).short = cmd.short := by
  induction rs generalizing cmd with
  | nil => rfl
  | cons r rs ih => exact ih.trans (Cmd.short_redirect r.1)

theorem Cmd.short_back (k : ℕ) : (Cmd.back^[k] cmd).short = cmd.short := by
  induction k generalizing cmd with
  | zero => rfl
  | succ k ih => exact ih

theorem Cmd.map_redirect (f : ω → ω') (tok : Char) :
    (cmd.redirect tok w).map f = (cmd.map f).redirect tok (f w) := by
  unfold Cmd.redirect
  split_ifs <;> rfl

theorem Cmd.map_redirects (f : ω → ω') (rs : List (Redir ω)) :
    (cmd.redirects rs).map f = (cmd.map f).redirects (rs.map (Prod.map id f)) := by
  induction rs generalizing cmd with
  | nil => rfl
  | cons r rs ih =>
    refine ih.trans ?_
    rw [Cmd.map_redirect]
    rfl

theorem Cmd.map_addArg (f : ω → ω') : (cmd.addArg w).map f = (cmd.map f).addArg (f w) := by
  induction cmd with
  | exec => simp [Cmd.addArg,Cmd.map]
  | redir cmd file mode fd ih => simp [Cmd.addArg,Cmd.map,ih]
  | pipe | list | back => rfl

def Args.map (f : ω → ω') (args : Args ω) : Args ω' :=
  List.map (fun a => (f a.1,a.2.map (Prod.map id f))) args

theorem Cmd.map_arguments (f : ω → ω') (args : Args ω) :
    (cmd.arguments args).map f = (cmd.map f).arguments (args.map f) := by
  induction args generalizing cmd with
  | nil => rfl
  | cons a args ih =>
    refine ih.trans ?_
    rw [Cmd.map_redirects,Cmd.map_addArg]
    rfl

theorem Cmd.map_back (f : ω → ω') (k : ℕ) : (Cmd.back^[k] cmd).map f = Cmd.back^[k] (cmd.map f) := by
  induction k generalizing cmd with
  | zero => rfl
  | succ k ih => exact ih

def Cmd.All (p : ω → Prop) (cmd : Cmd ω) : Prop := ∀ w ∈ cmd.words, p w

theorem Cmd.All.redirect (h : cmd.All p) (hw : p w) (tok : Char) : (cmd.redirect tok w).All p := by
  have hredir : ∀ mode fd, (Cmd.redir cmd w mode fd).All p := fun _ _ => by
    simp only [Cmd.All,Cmd.words,List.mem_append,mem_singleton]
    rintro v (hv | rfl)
    · exact h v hv
    · exact hw
  unfold Cmd.redirect
  split_ifs
  · exact hredir _ _
  · exact hredir _ _
  · exact hredir _ _
  · exact h

theorem Cmd.All.redirects (h : cmd.All p) {rs : List (Redir ω)}
    (hrs : ∀ r ∈ rs, p r.2) : (cmd.redirects rs).All p := by
  induction rs generalizing cmd with
  | nil => exact h
  | cons r rs ih =>
    obtain ⟨hr,hrs⟩ := forall_mem_cons.mp hrs
    exact ih (h.redirect hr r.1) hrs

theorem Cmd.All.addArg (h : cmd.All p) (hw : p w) : (cmd.addArg w).All p := by
  induction cmd with
  | exec =>
    simp only [Cmd.All,Cmd.addArg,Cmd.words,List.mem_append,mem_singleton]
    rintro v (hv | rfl)
    · exact h v hv
    · exact hw
  | redir cmd file mode fd ih =>
    simp only [Cmd.All,Cmd.words,List.mem_append,mem_singleton] at h
    have hcmd := ih fun v hv => h v (.inl hv)
    simp only [Cmd.All,Cmd.addArg,Cmd.words,List.mem_append,mem_singleton]
    rintro v (hv | rfl)
    · exact hcmd v hv
    · exact h v (.inr rfl)
  | pipe | list | back => exact h

theorem Cmd.All.back (h : cmd.All p) (k : ℕ) : (Cmd.back^[k] cmd).All p := by
  induction k generalizing cmd with
  | zero => exact h
  | succ k ih => exact ih h

end

section
variable {cs toks buf : List Char} {n s s' k : ℕ} {cmd cmd' : Cmd Span} {c : Char} {v : List Token}
  {t : Cmd (List Char)} {ω : Type}

theorem leading_eq {d : Char} (h : leading c = d) (hd : d ≠ '>') : c = d := by
  unfold leading at h
  split_ifs at h
  · exact absurd h.symm hd
  · exact h

theorem redir_of_leading (h : leading c ∈ ['<','>']) : c ∈ ['<','>','+'] := by
  unfold leading at h
  split_ifs at h with hc
  · simp [hc]
  · simp only [mem_cons,not_mem_nil,or_false] at h ⊢
    tauto

theorem starts_cases {L : List Token} (h : L.head?.any (Token.starts toks)) :
    ∃ c L', L = .sym c::L' ∧ leading c ∈ toks := by
  rcases L with _ | ⟨c | w,L⟩
  · cases h
  · exact ⟨c,L,rfl,of_decide_eq_true h⟩
  · cases h

theorem tokens_of_word (hn : NUL ∉ cs) (h : (gettoken cs s).ret = 'a') :
    tokens cs s = .word (slice cs ((gettoken cs s).q,(gettoken cs s).eq))::
      tokens cs (gettoken cs s).ps ∧ IsWord cs ((gettoken cs s).q,(gettoken cs s).eq) := by
  cases gettoken_lexed hn s with
  | stop hret =>
    rw [h] at hret
    cases hret
  | sym hop =>
    rw [h] at hop
    exact absurd hop (by decide)
  | word _ _ hw =>
    refine ⟨?_,hw⟩
    rw [tokens_eq hn,if_neg (by rw [h]; decide),Got.token,if_pos h]

structure Redirected (cs : List Char) (cmd : Cmd Span) (s : ℕ) (cmd' : Cmd Span) (s' : ℕ)
    (rs : List (Redir Span)) : Prop where
  le : s' ≤ cs.length
  tokens : tokens cs s = redirTokens (rs.map (Prod.map id (slice cs)))++tokens cs s'
  valid : ∀ r ∈ rs, r.Valid
  words : ∀ r ∈ rs, IsWord cs r.2
  result : cmd' = cmd.redirects rs

theorem parseredirs_sound (hn : NUL ∉ cs) (hs : s ≤ cs.length)
    (h : parseredirs cs n cmd s = pure (cmd',s')) : ∃ rs, Redirected cs cmd s cmd' s' rs := by
  induction n generalizing cmd s with
  | zero => cases h
  | succ n ih =>
    simp only [parseredirs,peek_eq hn (show ∀ c ∈ ['<','>'], c ∈ symbols by decide), gettoken_skip] at h
    split_ifs at h with hmore hfile
    · exact absurd h panic_ne_pure
    · obtain ⟨c,L,hL,hlead⟩ := starts_cases hmore
      obtain ⟨hret,hrest,-,-⟩ := gettoken_of_cons hn hL
      obtain ⟨hword,hw⟩ := tokens_of_word hn (not_not.mp hfile)
      obtain ⟨rs,hrs⟩ := ih (gettoken_ps_le hn (gettoken_ps_le hn hs)) h
      refine ⟨((gettoken cs s).ret,_)::rs,hrs.le,?_,?_,?_,hrs.result⟩
      · rw [hL,← hrest,hword,hrs.tokens,hret]
        rfl
      · refine forall_mem_cons.mpr ⟨?_,hrs.valid⟩
        rw [Redir.Valid,hret]
        exact redir_of_leading hlead
      · exact forall_mem_cons.mpr ⟨hw,hrs.words⟩
    · obtain ⟨rfl,rfl⟩ := Prod.mk.inj (pure_inj h)
      exact ⟨[],skip_le hs,by simp [redirTokens,tokens_skip hn],by simp,by simp,rfl⟩

structure Collected (cs : List Char) (cmd : Cmd Span) (s : ℕ) (cmd' : Cmd Span) (s' : ℕ)
    (args : Args Span) : Prop where
  le : s' ≤ cs.length
  tokens : tokens cs s = argTokens (args.map (slice cs))++tokens cs s'
  valid : ∀ a ∈ args, ∀ r ∈ a.2, r.Valid
  words : cmd.All (IsWord cs) → cmd'.All (IsWord cs)
  result : cmd' = cmd.arguments args

theorem parseargs_sound (hn : NUL ∉ cs) (hs : s ≤ cs.length) (hk : cmd.argc = some k)
    (hlt : k < MAXARGS) (h : parseargs cs n cmd k s = pure (cmd',s')) :
    (∃ args, Collected cs cmd s cmd' s' args) ∧ cmd'.short := by
  induction n generalizing cmd k s with
  | zero => cases h
  | succ n ih =>
    simp only [parseargs,peek_eq hn (show ∀ c ∈ ['|',')','&',';'], c ∈ symbols by decide),
      gettoken_skip] at h
    split_ifs at h with hstop hend hword hmax
    · obtain ⟨rfl,rfl⟩ := Prod.mk.inj (pure_inj h)
      exact ⟨⟨[],skip_le hs,by simp [Args.map,argTokens,tokens_skip hn],by simp,id,rfl⟩,
        (Cmd.short_of_argc hk).mpr hlt⟩
    · obtain ⟨rfl,rfl⟩ := Prod.mk.inj (pure_inj h)
      refine ⟨⟨[],gettoken_ps_le hn hs,?_,by simp,id,rfl⟩,(Cmd.short_of_argc hk).mpr hlt⟩
      have hnil : tokens cs s = [] := by rw [tokens_eq hn,if_pos hend]
      rw [hnil,tokens_ps_of_nul hn hend]
      rfl
    · exact absurd h panic_ne_pure
    · exact absurd h panic_ne_pure
    · obtain ⟨⟨ret,s₁⟩,hred,hrest⟩ := bind_eq_pure h
      obtain ⟨htok,hw⟩ := tokens_of_word hn (not_not.mp hword)
      obtain ⟨rs,hrs⟩ := parseredirs_sound hn (gettoken_ps_le hn hs) hred
      have hargc : ret.argc = some (k+1) := by
        rw [hrs.result,Cmd.argc_redirects]
        exact Cmd.argc_addArg hk
      obtain ⟨⟨args,hargs⟩,hshort⟩ := ih hrs.le hargc (not_le.mp hmax) hrest
      refine ⟨⟨(((gettoken cs s).q,(gettoken cs s).eq),rs)::args,hargs.le,?_,?_,?_,?_⟩,hshort⟩
      · rw [htok,hrs.tokens,hargs.tokens]
        simp [Args.map,argTokens]
      · exact forall_mem_cons.mpr ⟨hrs.valid,hargs.valid⟩
      · intro hall
        refine hargs.words ?_
        rw [hrs.result]
        exact (hall.addArg hw).redirects hrs.words
      · rw [hargs.result,hrs.result]
        rfl

theorem parsebacks_sound (hn : NUL ∉ cs) (hs : s ≤ cs.length)
    (h : parsebacks cs n cmd s = pure (cmd',s')) :
    s' ≤ cs.length ∧ ∃ k, tokens cs s = ampersands k++tokens cs s' ∧ cmd' = Cmd.back^[k] cmd := by
  induction n generalizing cmd s with
  | zero => cases h
  | succ n ih =>
    simp only [parsebacks,peek_eq hn (show ∀ c ∈ ['&'], c ∈ symbols by decide), gettoken_skip] at h
    split_ifs at h with hmore
    · obtain ⟨c,L,hL,hlead⟩ := starts_cases hmore
      obtain rfl := leading_eq (mem_singleton.mp hlead) (by decide)
      obtain ⟨-,hrest,-,-⟩ := gettoken_of_cons hn hL
      obtain ⟨hle,k,hk,hcmd⟩ := ih (gettoken_ps_le hn hs) h
      refine ⟨hle,k+1,?_,hcmd⟩
      rw [hL,← hrest,hk]
      rfl
    · obtain ⟨rfl,rfl⟩ := Prod.mk.inj (pure_inj h)
      exact ⟨skip_le hs,0,by simp [ampersands,tokens_skip hn],rfl⟩

structure Parsed (cs : List Char) (X : Nonterminal) (s : ℕ) (cmd : Cmd Span) (s' : ℕ) : Prop where
  le : s' ≤ cs.length
  derives : ∃ u, tokens cs s = u++tokens cs s' ∧ Derives X u (cmd.map (slice cs))
  short : cmd.short
  words : cmd.All (IsWord cs)

theorem tokens_of_peek (hn : NUL ∉ cs) (hc : c ≠ '>') (h : (tokens cs s).head?.any (Token.starts [c])) :
    tokens cs s = .sym c::tokens cs (gettoken cs s).ps := by
  obtain ⟨d,L,hL,hlead⟩ := starts_cases h
  obtain rfl := leading_eq (mem_singleton.mp hlead) hc
  obtain ⟨-,hrest,-,-⟩ := gettoken_of_cons hn hL
  rw [hL,hrest]

theorem parse_sound (hn : NUL ∉ cs) (n : ℕ) : ∀ s cmd s', s ≤ cs.length →
    (parseline cs n s = pure (cmd,s') → Parsed cs .line s cmd s') ∧
    (parsepipe cs n s = pure (cmd,s') → Parsed cs .pipe s cmd s') ∧
    (parseblock cs n s = pure (cmd,s') → Parsed cs .exec s cmd s') ∧
    (parseexec cs n s = pure (cmd,s') → Parsed cs .exec s cmd s') := by
  induction n with
  | zero =>
    intro s cmd s' _
    simp only [parseline,parsepipe,parseblock,parseexec]
    exact ⟨fun h => (nomatch h),fun h => (nomatch h),fun h => (nomatch h),fun h => (nomatch h)⟩
  | succ n ih =>
    intro s cmd s' hs
    refine ⟨fun h => ?_,fun h => ?_,fun h => ?_,fun h => ?_⟩
    · simp only [parseline] at h
      obtain ⟨⟨t,s₁⟩,hpipe,h⟩ := bind_eq_pure h
      have hp := (ih _ _ _ hs).2.1 hpipe
      obtain ⟨u,hu,hd⟩ := hp.derives
      obtain ⟨⟨t₁,s₂⟩,hback,h⟩ := bind_eq_pure h
      obtain ⟨hle,k,hk,rfl⟩ := parsebacks_sound hn hp.le hback
      simp only [peek_eq hn (show ∀ c ∈ [';'], c ∈ symbols by decide),gettoken_skip] at h
      split_ifs at h with hmore
      · obtain ⟨⟨t',s₃⟩,hline,h⟩ := bind_eq_pure h
        obtain ⟨rfl,rfl⟩ := Prod.mk.inj (pure_inj h)
        have hl := (ih _ _ _ (gettoken_ps_le hn hle)).1 hline
        obtain ⟨v,hv,hd'⟩ := hl.derives
        refine ⟨hl.le,⟨u++(ampersands k++.sym ';'::v),?_,?_⟩,?_,?_⟩
        · rw [hu,hk,tokens_of_peek hn (by decide) hmore,hv]
          simp
        · rw [Cmd.map,Cmd.map_back]
          exact hd.seq k hd'
        · simp [Cmd.short,Cmd.short_back,hp.short,hl.short]
        · exact forall_mem_append.mpr ⟨hp.words.back k,hl.words⟩
      · obtain ⟨rfl,rfl⟩ := Prod.mk.inj (pure_inj h)
        refine ⟨skip_le hle,⟨u++ampersands k,?_,?_⟩,?_,hp.words.back k⟩
        · rw [hu,hk,tokens_skip hn,append_assoc]
        · rw [Cmd.map_back]
          exact hd.line k
        · rw [Cmd.short_back]
          exact hp.short
    · simp only [parsepipe] at h
      obtain ⟨⟨t,s₁⟩,hexec,h⟩ := bind_eq_pure h
      have hp := (ih _ _ _ hs).2.2.2 hexec
      obtain ⟨u,hu,hd⟩ := hp.derives
      simp only [peek_eq hn (show ∀ c ∈ ['|'], c ∈ symbols by decide),gettoken_skip] at h
      split_ifs at h with hmore
      · obtain ⟨⟨t',s₂⟩,hpipe,h⟩ := bind_eq_pure h
        obtain ⟨rfl,rfl⟩ := Prod.mk.inj (pure_inj h)
        have hl := (ih _ _ _ (gettoken_ps_le hn hp.le)).2.1 hpipe
        obtain ⟨v,hv,hd'⟩ := hl.derives
        refine ⟨hl.le,⟨u++.sym '|'::v,?_,hd.bar hd'⟩,?_,?_⟩
        · rw [hu,tokens_of_peek hn (by decide) hmore,hv]
          simp
        · simp [Cmd.short,hp.short,hl.short]
        · exact forall_mem_append.mpr ⟨hp.words,hl.words⟩
      · obtain ⟨rfl,rfl⟩ := Prod.mk.inj (pure_inj h)
        exact ⟨skip_le hp.le,⟨u,by rw [hu,tokens_skip hn],hd.pipe⟩,hp.short,hp.words⟩
    · simp only [parseblock,peek_eq hn (show ∀ c ∈ ['('], c ∈ symbols by decide), gettoken_skip] at h
      split_ifs at h with hleft
      · obtain ⟨⟨t,s₁⟩,hline,h⟩ := bind_eq_pure h
        have hl := (ih _ _ _ (gettoken_ps_le hn hs)).1 hline
        obtain ⟨u,hu,hd⟩ := hl.derives
        simp only [peek_eq hn (show ∀ c ∈ [')'], c ∈ symbols by decide),gettoken_skip] at h
        split_ifs at h with hright
        · obtain ⟨rs,hrs⟩ := parseredirs_sound hn (gettoken_ps_le hn hl.le) h
          refine ⟨hrs.le,⟨.sym '('::u++.sym ')'::redirTokens (rs.map (Prod.map id (slice cs))),
            ?_,?_⟩,?_,?_⟩
          · rw [tokens_of_peek hn (by decide) hleft,hu, tokens_of_peek hn (by decide) hright,hrs.tokens]
            simp
          · rw [hrs.result,Cmd.map_redirects]
            refine hd.block fun r hr => ?_
            obtain ⟨r',hr',rfl⟩ := mem_map.mp hr
            exact hrs.valid r' hr'
          · rw [hrs.result,Cmd.short_redirects]
            exact hl.short
          · rw [hrs.result]
            exact hl.words.redirects hrs.words
        · exact absurd h panic_ne_pure
      · exact absurd h panic_ne_pure
    · simp only [parseexec,peek_eq hn (show ∀ c ∈ ['('], c ∈ symbols by decide)] at h
      split_ifs at h with hblock
      · have hp := (ih _ _ _ (skip_le hs)).2.2.1 h
        obtain ⟨u,hu,hd⟩ := hp.derives
        exact ⟨hp.le,⟨u,by rw [← hu,tokens_skip hn],hd⟩,hp.short,hp.words⟩
      · obtain ⟨⟨ret,s₁⟩,hred,h⟩ := bind_eq_pure h
        obtain ⟨rs,hrs⟩ := parseredirs_sound hn (skip_le hs) hred
        have hargc : ret.argc = some 0 := by
          rw [hrs.result,Cmd.argc_redirects]
          rfl
        have hempty : (Cmd.exec ([] : List Span)).All (IsWord cs) := fun w hw => nomatch hw
        obtain ⟨⟨args,hargs⟩,hshort⟩ := parseargs_sound hn hrs.le hargc (by decide) h
        refine ⟨hargs.le,⟨redirTokens (rs.map (Prod.map id (slice cs)))++
          argTokens (args.map (slice cs)),?_,?_⟩,hshort,hargs.words ?_⟩
        · rw [← tokens_skip hn,hrs.tokens,hargs.tokens,append_assoc]
        · rw [hargs.result,Cmd.map_arguments,hrs.result,Cmd.map_redirects]
          refine .simple (fun r hr => ?_) fun a ha r hr => ?_
          · obtain ⟨r',hr',rfl⟩ := mem_map.mp hr
            exact hrs.valid r' hr'
          · obtain ⟨a',ha',rfl⟩ := mem_map.mp ha
            obtain ⟨r',hr',rfl⟩ := mem_map.mp hr
            exact hargs.valid a' ha' r' hr'
        · rw [hrs.result]
          exact hempty.redirects hrs.words

/-! ## Every parse ends -/

theorem parseredirs_ne_stuck (hn : NUL ∉ cs) (h : (tokens cs s).length < n) :
    parseredirs cs n cmd s ≠ stuck := by
  induction n generalizing cmd s with
  | zero => simp at h
  | succ n ih =>
    simp only [parseredirs,peek_eq hn (show ∀ c ∈ ['<','>'], c ∈ symbols by decide),gettoken_skip]
    split_ifs with hmore hfile
    · exact panic_ne_stuck
    · obtain ⟨c,L,hL,-⟩ := starts_cases hmore
      obtain ⟨-,hrest,-,-⟩ := gettoken_of_cons hn hL
      obtain ⟨hword,-⟩ := tokens_of_word hn (not_not.mp hfile)
      refine ih ?_
      rw [hL,← hrest,hword] at h
      simp only [length_cons] at h
      omega
    · exact pure_ne_stuck

theorem parsebacks_ne_stuck (hn : NUL ∉ cs) (h : (tokens cs s).length < n) :
    parsebacks cs n cmd s ≠ stuck := by
  induction n generalizing cmd s with
  | zero => simp at h
  | succ n ih =>
    simp only [parsebacks,peek_eq hn (show ∀ c ∈ ['&'], c ∈ symbols by decide),gettoken_skip]
    split_ifs with hmore
    · rw [tokens_of_peek hn (by decide) hmore,length_cons] at h
      exact ih (by omega)
    · exact pure_ne_stuck

theorem parseargs_ne_stuck (hn : NUL ∉ cs) (hs : s ≤ cs.length)
    (h : (tokens cs s).length < n) : parseargs cs n cmd k s ≠ stuck := by
  induction n generalizing cmd k s with
  | zero => simp at h
  | succ n ih =>
    simp only [parseargs,peek_eq hn (show ∀ c ∈ ['|',')','&',';'], c ∈ symbols by decide), gettoken_skip]
    split_ifs with hstop hend hword hmax
    · exact pure_ne_stuck
    · exact pure_ne_stuck
    · exact panic_ne_stuck
    · exact panic_ne_stuck
    · obtain ⟨htok,-⟩ := tokens_of_word hn (not_not.mp hword)
      rw [htok,length_cons] at h
      intro hst
      rcases bind_eq_stuck hst with hst | ⟨⟨ret,s₁⟩,hred,hst⟩
      · exact parseredirs_ne_stuck hn (by omega) hst
      · obtain ⟨rs,hrs⟩ := parseredirs_sound hn (gettoken_ps_le hn hs) hred
        rw [hrs.tokens,length_append] at h
        exact ih hrs.le (by omega) hst

theorem Parsed.length_le {X : Nonterminal} (h : Parsed cs X s cmd s') :
    (tokens cs s').length ≤ (tokens cs s).length := by
  obtain ⟨u,hu,-⟩ := h.derives
  rw [hu,length_append]
  exact Nat.le_add_left _ _

theorem parse_ne_stuck (hn : NUL ∉ cs) (n : ℕ) : ∀ s, s ≤ cs.length →
    (4*(tokens cs s).length+4 ≤ n → parseline cs n s ≠ stuck) ∧
    (4*(tokens cs s).length+3 ≤ n → parsepipe cs n s ≠ stuck) ∧
    (4*(tokens cs s).length+1 ≤ n → parseblock cs n s ≠ stuck) ∧
    (4*(tokens cs s).length+2 ≤ n → parseexec cs n s ≠ stuck) := by
  induction n with
  | zero => exact fun s _ => ⟨by omega,by omega,by omega,by omega⟩
  | succ n ih =>
    intro s hs
    refine ⟨fun hlen hst => ?_,fun hlen hst => ?_,fun hlen hst => ?_,fun hlen hst => ?_⟩
    · simp only [parseline] at hst
      rcases bind_eq_stuck hst with hst | ⟨⟨t,s₁⟩,hpipe,hst⟩
      · exact (ih s hs).2.1 (by omega) hst
      have hp := (parse_sound hn n _ _ _ hs).2.1 hpipe
      have hle := hp.length_le
      rcases bind_eq_stuck hst with hst | ⟨⟨t₁,s₂⟩,hback,hst⟩
      · exact parsebacks_ne_stuck (s := s₁) hn (by omega) hst
      obtain ⟨hs₂,k,hk,-⟩ := parsebacks_sound hn hp.le hback
      rw [hk,length_append] at hle
      simp only [peek_eq hn (show ∀ c ∈ [';'], c ∈ symbols by decide),gettoken_skip] at hst
      split_ifs at hst with hmore
      · rw [tokens_of_peek hn (by decide) hmore,length_cons] at hle
        rcases bind_eq_stuck hst with hst | ⟨⟨t',s₃⟩,-,hst⟩
        · exact (ih _ (gettoken_ps_le hn hs₂)).1 (by omega) hst
        · exact pure_ne_stuck hst
      · exact pure_ne_stuck hst
    · simp only [parsepipe] at hst
      rcases bind_eq_stuck hst with hst | ⟨⟨t,s₁⟩,hexec,hst⟩
      · exact (ih s hs).2.2.2 (by omega) hst
      have hp := (parse_sound hn n _ _ _ hs).2.2.2 hexec
      have hle := hp.length_le
      simp only [peek_eq hn (show ∀ c ∈ ['|'], c ∈ symbols by decide),gettoken_skip] at hst
      split_ifs at hst with hmore
      · rw [tokens_of_peek hn (by decide) hmore,length_cons] at hle
        rcases bind_eq_stuck hst with hst | ⟨⟨t',s₂⟩,-,hst⟩
        · exact (ih _ (gettoken_ps_le hn hp.le)).2.1 (by omega) hst
        · exact pure_ne_stuck hst
      · exact pure_ne_stuck hst
    · simp only [parseblock,peek_eq hn (show ∀ c ∈ ['('], c ∈ symbols by decide), gettoken_skip] at hst
      split_ifs at hst with hleft
      · rw [tokens_of_peek hn (by decide) hleft,length_cons] at hlen
        rcases bind_eq_stuck hst with hst | ⟨⟨t,s₁⟩,hline,hst⟩
        · exact (ih _ (gettoken_ps_le hn hs)).1 (by omega) hst
        have hl := (parse_sound hn n _ _ _ (gettoken_ps_le hn hs)).1 hline
        have hle := hl.length_le
        simp only [peek_eq hn (show ∀ c ∈ [')'], c ∈ symbols by decide),gettoken_skip] at hst
        split_ifs at hst with hright
        · rw [tokens_of_peek hn (by decide) hright,length_cons] at hle
          exact parseredirs_ne_stuck hn (by omega) hst
        · exact panic_ne_stuck hst
      · exact panic_ne_stuck hst
    · simp only [parseexec,peek_eq hn (show ∀ c ∈ ['('], c ∈ symbols by decide)] at hst
      split_ifs at hst with hblock
      · refine (ih _ (skip_le hs)).2.2.1 ?_ hst
        rw [tokens_skip hn]
        omega
      · rcases bind_eq_stuck hst with hst | ⟨⟨ret,s₁⟩,hred,hst⟩
        · refine parseredirs_ne_stuck hn ?_ hst
          rw [tokens_skip hn]
          omega
        · obtain ⟨rs,hrs⟩ := parseredirs_sound hn (skip_le hs) hred
          have htok := hrs.tokens
          rw [tokens_skip hn] at htok
          rw [htok,length_append] at hlen
          exact parseargs_ne_stuck hn hrs.le (by omega) hst

/-! ## Every derivation is found -/

/-- The next token, if there is one, begins with one of `toks`. -/
def Stops (toks : List Char) (v : List Token) : Prop := ∀ t ∈ v.head?, t.starts toks

theorem Stops.mono {toks' : List Char} (h : Stops toks v)
    (hsub : ∀ c ∈ toks, c ∈ toks') : Stops toks' v := by
  intro t ht
  have hst := h t ht
  cases t with
  | sym => exact decide_eq_true (hsub _ (of_decide_eq_true hst))
  | word => cases hst

theorem Stops.not_starts {toks' : List Char} (h : Stops toks v)
    (hdis : ∀ c ∈ toks, c ∉ toks') : ¬(v.head?.any (Token.starts toks')) := by
  intro hst
  obtain ⟨c,L,rfl,hc⟩ := starts_cases hst
  exact hdis _ (of_decide_eq_true (h (.sym c) rfl)) hc

theorem stops_sym (v : List Token) (h : leading c ∈ toks) : Stops toks (.sym c::v) := by
  rintro t ht
  obtain rfl := Option.some_injective _ ht
  exact decide_eq_true h

/-- The parse is not over, or it has the tree `t` and leaves `v`. -/
def Finds (cs : List Char) (x : Parse (Cmd Span × ℕ)) (t : Cmd (List Char)) (v : List Token) : Prop :=
  x = stuck ∨ ∃ cmd s, x = pure (cmd,s) ∧ cmd.map (slice cs) = t ∧ tokens cs s = v

theorem Finds.bind {x : Parse (Cmd Span × ℕ)} {f : Cmd Span × ℕ → Parse (Cmd Span × ℕ)}
    {t' : Cmd (List Char)} {v' : List Token} (h : Finds cs x t v)
    (hf : ∀ cmd s, cmd.map (slice cs) = t → tokens cs s = v → Finds cs (f (cmd,s)) t' v') :
    Finds cs (x >>= f) t' v' := by
  rcases h with rfl | ⟨cmd,s,rfl,ht,hv⟩
  · exact .inl rfl
  · exact hf cmd s ht hv

theorem finds_pure (ht : cmd.map (slice cs) = t)
    (hv : tokens cs s = v) : Finds cs (pure (cmd,s)) t v := .inr ⟨cmd,s,rfl,ht,hv⟩

theorem parseredirs_finds (hn : NUL ∉ cs) {rs : List (Redir (List Char))}
    (hrs : ∀ r ∈ rs, r.Valid) (hv : ¬(v.head?.any (Token.starts ['<','>'])))
    (hs : tokens cs s = redirTokens rs++v) :
    Finds cs (parseredirs cs n cmd s) ((cmd.map (slice cs)).redirects rs) v := by
  induction rs generalizing n cmd s with
  | nil =>
    cases n with
    | zero => exact .inl rfl
    | succ =>
      simp only [parseredirs,peek_eq hn (show ∀ c ∈ ['<','>'], c ∈ symbols by decide)]
      have hs : tokens cs s = v := hs
      rw [if_neg (by rwa [hs])]
      exact finds_pure rfl (by rw [tokens_skip hn,hs])
  | cons r rs ih =>
    obtain ⟨hr,hrs⟩ := forall_mem_cons.mp hrs
    cases n with
    | zero => exact .inl rfl
    | succ =>
      have hs : tokens cs s = .sym r.1::.word r.2::(redirTokens rs++v) := hs
      obtain ⟨hret,hrest,-,-⟩ := gettoken_of_cons hn hs
      obtain ⟨hfile,hrest,-,hword⟩ := gettoken_of_cons hn hrest
      obtain ⟨-,-,hslice⟩ := hword r.2 rfl
      have hfile : (gettoken cs (gettoken cs s).ps).ret = 'a' := hfile
      have hmore : (tokens cs s).head?.any (Token.starts ['<','>']) := by
        have hall : ∀ c ∈ ['<','>','+'], leading c ∈ ['<','>'] := by decide
        rw [hs]
        exact decide_eq_true (hall r.1 hr)
      simp only [parseredirs,peek_eq hn (show ∀ c ∈ ['<','>'], c ∈ symbols by decide), gettoken_skip]
      rw [if_pos hmore,if_neg (not_not.mpr hfile)]
      have hcmd : (cmd.redirect (gettoken cs s).ret ((gettoken cs (gettoken cs s).ps).q,
          (gettoken cs (gettoken cs s).ps).eq)).map (slice cs) =
          (cmd.map (slice cs)).redirect r.1 r.2 := by
        rw [Cmd.map_redirect,hslice,hret]
        rfl
      rw [Cmd.redirects,foldl_cons,← hcmd]
      exact ih hrs hrest

theorem parsebacks_finds (hn : NUL ∉ cs)
    (hv : ¬(v.head?.any (Token.starts ['&']))) (hs : tokens cs s = ampersands k++v) :
    Finds cs (parsebacks cs n cmd s) (Cmd.back^[k] (cmd.map (slice cs))) v := by
  induction k generalizing n cmd s with
  | zero =>
    cases n with
    | zero => exact .inl rfl
    | succ =>
      simp only [parsebacks,peek_eq hn (show ∀ c ∈ ['&'], c ∈ symbols by decide)]
      have hs : tokens cs s = v := hs
      rw [if_neg (by rwa [hs])]
      exact finds_pure rfl (by rw [tokens_skip hn,hs])
  | succ k ih =>
    cases n with
    | zero => exact .inl rfl
    | succ =>
      have hs : tokens cs s = .sym '&'::(ampersands k++v) := hs
      obtain ⟨-,hrest,-,-⟩ := gettoken_of_cons hn hs
      simp only [parsebacks,peek_eq hn (show ∀ c ∈ ['&'], c ∈ symbols by decide),gettoken_skip]
      rw [if_pos (by rw [hs]; rfl)]
      exact ih hrest

theorem parseargs_finds (hn : NUL ∉ cs) {args : Args (List Char)}
    (hargs : ∀ a ∈ args, ∀ r ∈ a.2, r.Valid) (hv : Stops ['|',')','&',';'] v)
    (hk : k+args.length < MAXARGS) (hs : tokens cs s = argTokens args++v) :
    Finds cs (parseargs cs n cmd k s) ((cmd.map (slice cs)).arguments args) v := by
  induction args generalizing n cmd k s with
  | nil =>
    cases n with
    | zero => exact .inl rfl
    | succ =>
      have hs : tokens cs s = v := hs
      simp only [parseargs,peek_eq hn (show ∀ c ∈ ['|',')','&',';'], c ∈ symbols by decide),
        gettoken_skip]
      cases v with
      | nil =>
        have hret := gettoken_of_nil hn hs
        rw [if_neg (by rw [hs]; decide),if_pos hret]
        exact finds_pure rfl (tokens_ps_of_nul hn hret)
      | cons t =>
        rw [if_pos (by rw [hs]; exact hv t rfl)]
        exact finds_pure rfl (by rw [tokens_skip hn,hs])
  | cons a args ih =>
    obtain ⟨ha,hargs⟩ := forall_mem_cons.mp hargs
    cases n with
    | zero => exact .inl rfl
    | succ n =>
      have hs : tokens cs s = .word a.1::(redirTokens a.2++(argTokens args++v)) := by
        rw [hs]
        simp [argTokens]
      obtain ⟨hret,hrest,-,hword⟩ := gettoken_of_cons hn hs
      obtain ⟨-,-,hslice⟩ := hword a.1 rfl
      have hret : (gettoken cs s).ret = 'a' := hret
      have hmax : ¬MAXARGS ≤ k+1 := by
        rw [length_cons] at hk
        omega
      have hnext : ¬((argTokens args++v).head?.any (Token.starts ['<','>'])) := by
        cases args with
        | nil => exact hv.not_starts (by decide)
        | cons => simp [argTokens,Token.starts]
      simp only [parseargs,peek_eq hn (show ∀ c ∈ ['|',')','&',';'], c ∈ symbols by decide),
        gettoken_skip]
      have hstop : ¬((tokens cs s).head?.any (Token.starts ['|',')','&',';'])) := by
        rw [hs]
        exact Bool.false_ne_true
      rw [if_neg hstop,if_neg (by rw [hret]; decide),if_neg (not_not.mpr hret),if_neg hmax]
      refine (parseredirs_finds hn ha hnext hrest).bind fun ret s₁ ht hs₁ => ?_
      rw [Cmd.map_addArg,hslice] at ht
      have hlen : k+1+args.length < MAXARGS := by
        rw [length_cons] at hk
        omega
      rw [Cmd.arguments,foldl_cons,← ht]
      exact ih hargs hlen hs₁

def Nonterminal.follow : Nonterminal → List Char
  | .line => [')']
  | .pipe => [')','&',';']
  | .exec => [')','&',';','|']

def parser (cs : List Char) : Nonterminal → ℕ → ℕ → Parse (Cmd Span × ℕ)
  | .line => parseline cs
  | .pipe => parsepipe cs
  | .exec => parseexec cs

theorem Cmd.argc_arguments {cmd : Cmd ω} (h : cmd.argc = some k) (args : Args ω) :
    (cmd.arguments args).argc = some (k+args.length) := by
  induction args generalizing cmd k with
  | nil => exact h
  | cons a args ih =>
    have ha : ((cmd.addArg a.1).redirects a.2).argc = some (k+1) :=
      (Cmd.argc_redirects a.2).trans (Cmd.argc_addArg h)
    refine (ih ha).trans ?_
    rw [length_cons]
    congr 1
    omega

theorem stops_ampersands (k : ℕ) (hv : Stops [')','&',';'] v) :
    Stops [')','&',';'] (ampersands k++v) := by
  cases k with
  | zero => exact hv
  | succ => exact stops_sym _ (by decide)

theorem parser_zero (X : Nonterminal) : parser cs X 0 s = stuck := by
  cases X <;> simp only [parser,parseline,parsepipe,parseexec]

/-- The tokens of a block or of a simple command begin as `parseexec` expects it. -/
theorem simple_not_block {rs : List (Redir (List Char))} {args : Args (List Char)}
    (hrs : ∀ r ∈ rs, r.Valid) (hv : Stops Nonterminal.exec.follow v) :
    ¬((redirTokens rs++argTokens args++v).head?.any (Token.starts ['('])) := by
  cases rs with
  | nil =>
    cases args with
    | nil => exact hv.not_starts (by decide)
    | cons => exact Bool.false_ne_true
  | cons r =>
    have hall : ∀ c ∈ ['<','>','+'], leading c ∉ ['('] := by decide
    intro h
    exact hall r.1 (hrs r (by simp)) (of_decide_eq_true h)

theorem parse_complete (hn : NUL ∉ cs) {X : Nonterminal} {u : List Token}
    (h : Derives X u t) (hshort : t.short) (hv : Stops X.follow v)
    (hs : tokens cs s = u++v) : Finds cs (parser cs X n s) t v := by
  induction h generalizing n s v with
  | @line u t k hu ih =>
    rw [Cmd.short_back] at hshort
    cases n with
    | zero => exact .inl (parser_zero _)
    | succ =>
      rw [append_assoc] at hs
      have hv' : Stops [')','&',';'] v := hv.mono (by decide)
      simp only [parser,parseline]
      refine (ih hshort (stops_ampersands k hv') hs).bind fun cmd s₁ ht hs₁ => ?_
      refine (parsebacks_finds hn (hv.not_starts (by decide)) hs₁).bind fun cmd s₂ ht₂ hs₂ => ?_
      simp only [peek_eq hn (show ∀ c ∈ [';'], c ∈ symbols by decide)]
      rw [if_neg (by rw [hs₂]; exact hv.not_starts (by decide))]
      exact finds_pure (by rw [ht₂,ht]) (by rw [tokens_skip hn,hs₂])
  | @seq u u' t t' k hu hu' ih ih' =>
    simp only [Cmd.short,Cmd.short_back,Bool.and_eq_true] at hshort
    cases n with
    | zero => exact .inl (parser_zero _)
    | succ =>
      have hs : tokens cs s = u++(ampersands k++.sym ';'::(u'++v)) := by simpa using hs
      have hsemi : Stops [')','&',';'] (.sym ';'::(u'++v)) := stops_sym _ (by decide)
      simp only [parser,parseline]
      refine (ih hshort.1 (stops_ampersands k hsemi) hs).bind fun cmd s₁ ht hs₁ => ?_
      refine (parsebacks_finds (v := .sym ';'::(u'++v)) hn Bool.false_ne_true hs₁).bind fun cmd s₂ ht₂ hs₂ => ?_
      obtain ⟨-,hrest,-,-⟩ := gettoken_of_cons hn hs₂
      simp only [peek_eq hn (show ∀ c ∈ [';'], c ∈ symbols by decide),gettoken_skip]
      rw [if_pos (by rw [hs₂]; rfl)]
      refine (ih' hshort.2 hv hrest).bind fun right s₃ ht₃ hs₃ => ?_
      exact finds_pure (by rw [Cmd.map,ht₂,ht,ht₃]) hs₃
  | @pipe u t hu ih =>
    cases n with
    | zero => exact .inl (parser_zero _)
    | succ =>
      simp only [parser,parsepipe]
      refine (ih hshort (hv.mono (by decide)) hs).bind fun cmd s₁ ht hs₁ => ?_
      simp only [peek_eq hn (show ∀ c ∈ ['|'], c ∈ symbols by decide)]
      rw [if_neg (by rw [hs₁]; exact hv.not_starts (by decide))]
      exact finds_pure ht (by rw [tokens_skip hn,hs₁])
  | @bar u u' t t' hu hu' ih ih' =>
    simp only [Cmd.short,Bool.and_eq_true] at hshort
    cases n with
    | zero => exact .inl (parser_zero _)
    | succ =>
      have hs : tokens cs s = u++.sym '|'::(u'++v) := by simpa using hs
      simp only [parser,parsepipe]
      refine (ih hshort.1 (stops_sym _ (by decide)) hs).bind fun cmd s₁ ht hs₁ => ?_
      obtain ⟨-,hrest,-,-⟩ := gettoken_of_cons hn hs₁
      simp only [peek_eq hn (show ∀ c ∈ ['|'], c ∈ symbols by decide),gettoken_skip]
      rw [if_pos (by rw [hs₁]; rfl)]
      refine (ih' hshort.2 hv hrest).bind fun right s₂ ht₂ hs₂ => ?_
      exact finds_pure (by rw [Cmd.map,ht,ht₂]) hs₂
  | @block u t rs hu hrs ih =>
    rw [Cmd.short_redirects] at hshort
    have hs : tokens cs s = .sym '('::(u++.sym ')'::(redirTokens rs++v)) := by simpa using hs
    obtain ⟨-,hrest,-,-⟩ := gettoken_of_cons hn hs
    rcases n with _ | _ | n
    · exact .inl (parser_zero _)
    · refine .inl ?_
      simp only [parser,parseexec,parseblock, peek_eq hn (show ∀ c ∈ ['('], c ∈ symbols by decide)]
      exact if_pos (by rw [hs]; rfl)
    · simp only [parser,parseexec,parseblock,skip_skip,gettoken_skip,
        peek_eq hn (show ∀ c ∈ ['('], c ∈ symbols by decide),tokens_skip hn]
      rw [if_pos (by rw [hs]; rfl),if_neg (by rw [hs]; exact not_not.mpr rfl)]
      refine (ih hshort (stops_sym _ (by decide)) hrest).bind fun cmd s₁ ht hs₁ => ?_
      obtain ⟨-,hrest,-,-⟩ := gettoken_of_cons hn hs₁
      simp only [peek_eq hn (show ∀ c ∈ [')'], c ∈ symbols by decide),gettoken_skip]
      rw [if_neg (by rw [hs₁]; exact not_not.mpr rfl),← ht]
      exact parseredirs_finds hn hrs (hv.not_starts (by decide)) hrest
  | @simple rs args hrs hargs =>
    cases n with
    | zero => exact .inl (parser_zero _)
    | succ n =>
      have hargc : (((Cmd.exec []).redirects rs).arguments args).argc = some (0+args.length) :=
        Cmd.argc_arguments (Cmd.argc_redirects rs) args
      have hlen := (Cmd.short_of_argc hargc).mp hshort
      have hblock : ¬((tokens cs s).head?.any (Token.starts ['('])) :=
        hs ▸ simple_not_block hrs hv
      have hstop : Stops ['|',')','&',';'] v := hv.mono (by decide)
      rw [append_assoc] at hs
      have hnext : ¬((argTokens args++v).head?.any (Token.starts ['<','>'])) := by
        cases args with
        | nil => exact hv.not_starts (by decide)
        | cons => exact Bool.false_ne_true
      simp only [parser,parseexec,peek_eq hn (show ∀ c ∈ ['('], c ∈ symbols by decide)]
      rw [if_neg hblock]
      refine (parseredirs_finds hn hrs hnext ((tokens_skip hn).trans hs)).bind fun ret s₁ ht hs₁ => ?_
      exact ht ▸ parseargs_finds hn hargs hstop hlen hs₁

/-! ## The words in the buffer -/

theorem nulterminate_eq (cmd : Cmd Span) (buf : List Char) :
    nulterminate cmd buf = cmd.words.foldl (fun buf w => buf.set w.2 NUL) buf := by
  induction cmd generalizing buf with
  | exec => rfl
  | redir cmd file mode fd ih => simp [nulterminate,Cmd.words,ih]
  | pipe left right ihl ihr | list left right ihl ihr => simp [nulterminate,Cmd.words,ihl,ihr]
  | back cmd ih => exact ih buf

theorem charAt_set (buf : List Char) (i j : ℕ) :
    charAt (buf.set j NUL) i = if i = j then NUL else charAt buf i := by
  by_cases hij : i = j
  · subst hij
    by_cases hlt : i < buf.length <;> simp [charAt,hlt]
  · simp [charAt,getElem?_set_ne (Ne.symm hij),hij]

theorem charAt_foldl_set (ws : List Span) (buf : List Char) (i : ℕ) :
    charAt (ws.foldl (fun buf w => buf.set w.2 NUL) buf) i =
      if ∃ w ∈ ws, w.2 = i then NUL else charAt buf i := by
  induction ws generalizing buf with
  | nil => simp
  | cons w ws ih =>
    rw [foldl_cons,ih,charAt_set]
    by_cases hw : w.2 = i
    · simp [hw]
    · have hiff : (∃ v ∈ w::ws, v.2 = i) ↔ ∃ v ∈ ws, v.2 = i := by
        simp only [exists_mem_cons_iff,hw,false_or]
      rw [if_neg (Ne.symm hw)]
      exact (if_congr hiff rfl rfl).symm

theorem cstring_drop {q e : ℕ} (hq : q ≤ e) (he : e ≤ cs.length)
    (hsame : ∀ i, q ≤ i → i < e → charAt buf i = charAt cs i ∧ charAt cs i ≠ NUL)
    (hstop : charAt buf e = NUL) : cstring (buf.drop q) = slice cs (q,e) := by
  obtain ⟨d,rfl⟩ := Nat.exists_eq_add_of_le hq
  clear hq
  induction d generalizing q with
  | zero =>
    have hnil : slice cs (q,q+0) = [] := by simp [slice]
    rw [hnil,cstring]
    rw [charAt_eq,Nat.add_zero] at hstop
    cases h : buf.drop q with
    | nil => rfl
    | cons c =>
      rw [h] at hstop
      have hc : c = NUL := hstop
      simp [hc]
  | succ d ih =>
    obtain ⟨hc,hc0⟩ := hsame q le_rfl (by omega)
    have hlt : q < buf.length := by
      by_contra hge
      exact hc0 (by simpa [charAt,getElem?_eq_none (not_lt.mp hge)] using hc.symm)
    have hbuf : buf.drop q = charAt buf q::buf.drop (q+1) := by
      rw [drop_eq_getElem_cons hlt]
      simp [charAt,hlt]
    have hcs : slice cs (q,q+(d+1)) = charAt cs q::slice cs (q+1,q+1+d) := by
      have hlt' : q < cs.length := by omega
      simp only [slice,Nat.add_sub_cancel_left]
      rw [drop_eq_getElem_cons hlt',take_succ_cons]
      simp [charAt,hlt']
    have hrest := ih (q := q+1) (by omega) (fun i hi hi' => hsame i (by omega) (by omega))
      (by rwa [show q+1+d = q+(d+1) by omega])
    rw [hcs,← hrest,hbuf,hc]
    simp [cstring,hc0]

theorem nul_notMem_cstring (buf : List Char) : NUL ∉ cstring buf := by
  intro h
  have hall := List.all_eq_true.mp (all_takeWhile (p := fun c => decide (c ≠ NUL)) (l := buf)) _ h
  exact (of_decide_eq_true hall) rfl

theorem charAt_cstring {i : ℕ} (h : i < (cstring buf).length) :
    charAt (buf++[NUL]) i = charAt (cstring buf) i := by
  have hbuf : buf = cstring buf++buf.dropWhile (· ≠ NUL) := takeWhile_append_dropWhile.symm
  have hi : i < buf.length := by
    rw [hbuf,length_append]
    omega
  have hget : buf[i]? = (cstring buf)[i]? := by
    conv_lhs => rw [hbuf]
    exact getElem?_append_left h
  simp [charAt,getElem?_append_left hi,hget]

theorem Cmd.map_congr {ω' : Type} {f g : ω → ω'} {cmd : Cmd ω} (h : cmd.All fun w => f w = g w) :
    cmd.map f = cmd.map g := by
  induction cmd with
  | exec => exact congrArg _ (map_congr_left h)
  | redir cmd file mode fd ih =>
    obtain ⟨hc,hf⟩ := forall_mem_append.mp h
    simp [Cmd.map,ih hc,hf file (by simp)]
  | pipe left right ihl ihr | list left right ihl ihr =>
    obtain ⟨hl,hr⟩ := forall_mem_append.mp h
    simp [Cmd.map,ihl hl,ihr hr]
  | back cmd ih => exact congrArg _ (ih h)

/-- After `nulterminate` the pointers of a tree lead to its words: no zero is written into a
word, since a longest word ends at a blank, a symbol or the end of the string. -/
theorem strings_eq (h : cmd.All (IsWord (cstring buf))) :
    strings (cmd,nulterminate cmd (buf++[NUL])) = cmd.map (slice (cstring buf)) := by
  refine Cmd.map_congr fun w hw => ?_
  have hword := h w hw
  rw [nulterminate_eq]
  refine cstring_drop hword.lt.le hword.le (fun i hi hi' => ?_) ?_
  · have hlen : i < (cstring buf).length := lt_of_lt_of_le hi' hword.le
    have hmem : charAt (cstring buf) i ∈ slice (cstring buf) w := by
      refine mem_iff_getElem?.mpr ⟨i-w.1,?_⟩
      rw [slice,getElem?_take_of_lt (by omega),getElem?_drop,Nat.add_sub_of_le hi]
      simp [charAt,hlen]
    have hnot : ¬∃ v ∈ cmd.words, v.2 = i := by
      rintro ⟨v,hv,rfl⟩
      exact (h v hv).stop hlen (hword.inside _ hmem)
    rw [charAt_foldl_set,if_neg hnot]
    exact ⟨charAt_cstring hlen,(charAt_ne_nul (nul_notMem_cstring buf)).mpr hlen⟩
  · rw [charAt_foldl_set,if_pos ⟨w,hw,rfl⟩]

theorem Cmd.short_map {ω' : Type} (f : ω → ω') (cmd : Cmd ω) : (cmd.map f).short = cmd.short := by
  induction cmd with
  | exec => simp [Cmd.map,Cmd.short]
  | redir cmd file mode fd ih | back cmd ih => exact ih
  | pipe left right ihl ihr | list left right ihl ihr => simp [Cmd.map,Cmd.short,ihl,ihr]

/-! ## The command line -/

def bound (buf : List Char) : ℕ := 4*(cstring buf).length+4

theorem parsecmd_parsed {r : Cmd Span × List Char} (h : parsecmd n buf = pure r) :
    ∃ s, Parsed (cstring buf) .line 0 r.1 s ∧ tokens (cstring buf) s = [] ∧
      r.2 = nulterminate r.1 (buf++[NUL]) ∧ strings r = r.1.map (slice (cstring buf)) := by
  have hn := nul_notMem_cstring buf
  unfold parsecmd at h
  obtain ⟨⟨cmd,s⟩,hline,h⟩ := bind_eq_pure h
  have hp := (parse_sound hn n _ _ _ (Nat.zero_le _)).1 hline
  simp only [peek_eq hn (show ∀ c ∈ ([] : List Char), c ∈ symbols by simp)] at h
  split_ifs at h with hs
  · cases h
  · obtain rfl := pure_inj h
    refine ⟨s,hp,?_,rfl,strings_eq hp.words⟩
    rw [← tokens_skip hn,not_not.mp hs]
    simp [tokens,tokensFrom]

theorem parsecmd_sound {r : Cmd Span × List Char} (h : parsecmd n buf = pure r) :
    Derives .line (tokens (cstring buf) 0) (strings r) ∧ (strings r).short := by
  obtain ⟨s,hp,hend,-,hs⟩ := parsecmd_parsed h
  obtain ⟨u,hu,hd⟩ := hp.derives
  rw [hend,append_nil] at hu
  rw [hs,Cmd.short_map]
  exact ⟨hu ▸ hd,hp.short⟩

theorem bound_le (h : bound buf ≤ n) : parseline (cstring buf) n 0 ≠ stuck := by
  refine (parse_ne_stuck (nul_notMem_cstring buf) n 0 (Nat.zero_le _)).1 ?_
  have hlen : (tokens (cstring buf) 0).length ≤ (cstring buf).length-0 := tokens_length_le 0
  unfold bound at h
  omega

theorem parsecmd_ne_stuck (h : bound buf ≤ n) : parsecmd n buf ≠ stuck := by
  intro hst
  unfold parsecmd at hst
  rcases bind_eq_stuck hst with hst | ⟨⟨cmd,s⟩,-,hst⟩
  · exact bound_le h hst
  · simp only [peek_eq (nul_notMem_cstring buf) (show ∀ c ∈ ([] : List Char), c ∈ symbols by simp)] at hst
    split_ifs at hst
    · cases hst
    · exact pure_ne_stuck hst

theorem parsecmd_complete (h : bound buf ≤ n)
    (hd : Derives .line (tokens (cstring buf) 0) t) (hshort : t.short) :
    ∃ r, parsecmd n buf = pure r ∧ strings r = t := by
  have hn := nul_notMem_cstring buf
  have hfind : Finds (cstring buf) (parseline (cstring buf) n 0) t [] :=
    parse_complete hn hd hshort (fun t ht => nomatch ht) (append_nil _).symm
  rcases hfind with hst | ⟨cmd,s,hline,ht,hs⟩
  · exact absurd hst (bound_le h)
  · have hp := (parse_sound hn n _ _ _ (Nat.zero_le _)).1 hline
    -- no token is left, so only blanks stand before the end
    have hend : skip (cstring buf) s = (cstring buf).length :=
      le_antisymm (skip_le hp.le) (length_le_skip hn (gettoken_of_nil hn hs))
    refine ⟨(cmd,nulterminate cmd (buf++[NUL])),?_,?_⟩
    · unfold parsecmd
      simp only [hline,pure_bind_parse,peek_eq hn (show ∀ c ∈ ([] : List Char), c ∈ symbols by simp)]
      exact if_neg (not_not.mpr hend)
    · rw [strings_eq hp.words,ht]

end

/-! ## Printed commands -/

/-- The place of a command in a larger one; `back` is a pipeline with its ampersands. -/
inductive Place where
  | line | back | pipe | exec
  deriving DecidableEq

def parens (needed : Bool) (u : List Token) : List Token :=
  if needed then .sym '('::u++[.sym ')'] else u

def Cmd.unparse : Cmd (List Char) → Place → List Token
  | .exec argv,_ => argv.map .word
  | .redir cmd file mode _,_ =>
    cmd.unparse .exec++[.sym (if mode = O_RDONLY then '<' else '>'),.word file]
  | .pipe left right,p =>
    parens (p = .exec) (left.unparse .exec++.sym '|'::right.unparse .pipe)
  | .back cmd,p => parens (p = .exec ∨ p = .pipe) (cmd.unparse .back++[.sym '&'])
  | .list left right,p => parens (p ≠ .line) (left.unparse .back++.sym ';'::right.unparse .line)

def Cmd.print (cmd : Cmd (List Char)) : List Char := render (cmd.unparse .line)

/-- What a tree of the grammar looks like: its words are words, and its redirections are
those of `parseredirs`. -/
def Cmd.Printable : Cmd (List Char) → Prop
  | .exec argv => ∀ w ∈ argv, (Token.word w).Valid
  | .redir cmd file mode fd => cmd.Printable ∧ (Token.word file).Valid ∧
      (mode = O_RDONLY ∧ fd = 0 ∨ mode = O_WRONLY ||| O_CREATE ∧ fd = 1)
  | .pipe left right => left.Printable ∧ right.Printable
  | .list left right => left.Printable ∧ right.Printable
  | .back cmd => cmd.Printable

section
variable {cmd : Cmd (List Char)} {w : List Char} {u : List Token}

theorem Cmd.Printable.redirect (h : cmd.Printable) (hw : (Token.word w).Valid) (tok : Char) :
    (cmd.redirect tok w).Printable := by
  unfold Cmd.redirect
  split_ifs
  · exact ⟨h,hw,.inl ⟨rfl,rfl⟩⟩
  · exact ⟨h,hw,.inr ⟨rfl,rfl⟩⟩
  · exact ⟨h,hw,.inr ⟨rfl,rfl⟩⟩
  · exact h

theorem Cmd.Printable.redirects (h : cmd.Printable) {rs : List (Redir (List Char))}
    (hrs : ∀ t ∈ redirTokens rs, t.Valid) : (cmd.redirects rs).Printable := by
  induction rs generalizing cmd with
  | nil => exact h
  | cons r rs ih =>
    have hrs : ∀ t ∈ .sym r.1::.word r.2::redirTokens rs, t.Valid := hrs
    simp only [forall_mem_cons] at hrs
    exact ih (h.redirect hrs.2.1 r.1) hrs.2.2

theorem Cmd.Printable.addArg (h : cmd.Printable) (hw : (Token.word w).Valid) :
    (cmd.addArg w).Printable := by
  induction cmd with
  | exec =>
    refine forall_mem_append.mpr ⟨h,fun v hv => ?_⟩
    rwa [mem_singleton.mp hv]
  | redir cmd file mode fd ih => exact ⟨ih h.1,h.2⟩
  | pipe | list | back => exact h

theorem Cmd.Printable.arguments (h : cmd.Printable) {args : Args (List Char)}
    (hargs : ∀ t ∈ argTokens args, t.Valid) : (cmd.arguments args).Printable := by
  induction args generalizing cmd with
  | nil => exact h
  | cons a args ih =>
    have hargs : ∀ t ∈ .word a.1::redirTokens a.2++argTokens args, t.Valid := hargs
    obtain ⟨ha,hargs⟩ := forall_mem_append.mp hargs
    obtain ⟨hw,hrs⟩ := forall_mem_cons.mp ha
    exact ih ((h.addArg hw).redirects hrs) hargs

theorem Cmd.Printable.back (h : cmd.Printable) (k : ℕ) : (Cmd.back^[k] cmd).Printable := by
  induction k generalizing cmd with
  | zero => exact h
  | succ k ih => exact ih h

theorem Derives.printable {X : Nonterminal} (h : Derives X u cmd)
    (hu : ∀ t ∈ u, t.Valid) : cmd.Printable := by
  induction h with
  | line k _ ih => exact (ih (forall_mem_append.mp hu).1).back k
  | seq k _ _ ih ih' =>
    simp only [forall_mem_append,forall_mem_cons] at hu
    exact ⟨(ih hu.1).back k,ih' hu.2.2.2⟩
  | pipe _ ih => exact ih hu
  | bar _ _ ih ih' =>
    simp only [forall_mem_append,forall_mem_cons] at hu
    exact ⟨ih hu.1,ih' hu.2.2⟩
  | block _ _ ih =>
    simp only [cons_append,forall_mem_append,forall_mem_cons] at hu
    exact (ih hu.2.1).redirects hu.2.2.2
  | simple =>
    obtain ⟨hrs,hargs⟩ := forall_mem_append.mp hu
    have hempty : (Cmd.exec ([] : List (List Char))).Printable := fun w hw => nomatch hw
    exact (hempty.redirects hrs).arguments hargs

theorem Derives.redirect {tok : Char} (h : Derives .exec u cmd)
    (hr : tok ∈ ['<','>','+']) : Derives .exec (u++[.sym tok,.word w]) (cmd.redirect tok w) := by
  generalize hX : Nonterminal.exec = X at h
  cases h with
  | line | seq | pipe | bar => cases hX
  | @block u t rs hu hrs =>
    have hnew : ∀ r ∈ rs++[(tok,w)], Redir.Valid r :=
      forall_mem_append.mpr ⟨hrs,by simpa [Redir.Valid] using hr⟩
    simpa [redirTokens,Cmd.redirects] using hu.block hnew
  | @simple rs args hrs hargs =>
    rcases eq_nil_or_concat args with rfl | ⟨args,a,rfl⟩
    · have hnew : ∀ r ∈ rs++[(tok,w)], Redir.Valid r :=
        forall_mem_append.mpr ⟨hrs,by simpa [Redir.Valid] using hr⟩
      have hd : Derives .exec (redirTokens (rs++[(tok,w)])++argTokens []) _ :=
        .simple hnew fun a ha => nomatch ha
      simpa [redirTokens,Cmd.redirects,argTokens,Cmd.arguments] using hd
    · obtain ⟨hargs,ha⟩ := forall_mem_append.mp (concat_eq_append ▸ hargs)
      have hnew : ∀ r ∈ a.2++[(tok,w)], Redir.Valid r :=
        forall_mem_append.mpr ⟨ha a (by simp),by simpa [Redir.Valid] using hr⟩
      have hall : ∀ b ∈ args++[(a.1,a.2++[(tok,w)])], ∀ r ∈ b.2, Redir.Valid r :=
        forall_mem_append.mpr ⟨hargs,by simpa using hnew⟩
      simpa [redirTokens,Cmd.redirects,argTokens,Cmd.arguments] using Derives.simple hrs hall

/-- The tokens `u` stand for the command at a place. -/
def Shown : Place → List Token → Cmd (List Char) → Prop
  | .line,u,t => Derives .line u t
  | .back,u,t => ∃ u' k t', u = u'++ampersands k ∧ t = Cmd.back^[k] t' ∧ Derives .pipe u' t'
  | .pipe,u,t => Derives .pipe u t
  | .exec,u,t => Derives .exec u t

theorem Shown.line_of_back (h : Shown .back u cmd) : Shown .line u cmd := by
  obtain ⟨u',k,t',rfl,rfl,hd⟩ := h
  exact hd.line k

theorem Shown.back_of_pipe (h : Shown .pipe u cmd) : Shown .back u cmd :=
  ⟨u,0,cmd,by simp [ampersands],rfl,h⟩

theorem Shown.of_exec (h : Derives .exec u cmd) : ∀ p, Shown p u cmd
  | .line => Shown.line_of_back (Shown.back_of_pipe h.pipe)
  | .back => Shown.back_of_pipe h.pipe
  | .pipe => h.pipe
  | .exec => h

theorem Derives.parens (h : Derives .line u cmd) : Derives .exec (.sym '('::u++[.sym ')']) cmd := by
  have hd : Derives .exec (.sym '('::u++.sym ')'::redirTokens []) (cmd.redirects []) :=
    h.block fun _ hr => nomatch hr
  exact hd

theorem derives_words (argv : List (List Char)) : Derives .exec (argv.map .word) (.exec argv) := by
  have hd : Derives .exec (redirTokens []++argTokens (argv.map fun w => (w,[]))) _ :=
    .simple (fun r hr => nomatch hr) fun a ha r hr => by
      obtain ⟨w,-,rfl⟩ := mem_map.mp ha
      cases hr
  have htokens : redirTokens []++argTokens (argv.map fun w => (w,[])) = argv.map .word := by
    simp only [redirTokens,argTokens,flatMap_nil,nil_append,flatMap_map]
    exact List.map_eq_flatMap.symm
  have htree : ∀ argv' : List (List Char), (Cmd.exec argv').arguments (argv.map fun w => (w,[])) =
      .exec (argv'++argv) := by
    clear hd htokens
    induction argv with
    | nil => simp [Cmd.arguments]
    | cons w argv ih =>
      intro argv'
      refine (ih (argv'++[w])).trans ?_
      simp
  rw [htokens] at hd
  exact htree [] ▸ hd

theorem unparse_shown (h : cmd.Printable) (p : Place) : Shown p (cmd.unparse p) cmd := by
  induction cmd generalizing p with
  | exec argv => exact .of_exec (derives_words argv) p
  | redir cmd file mode fd ih =>
    obtain ⟨hc,-,hmode⟩ := h
    have hd : Derives .exec (cmd.unparse .exec) cmd := ih hc .exec
    refine .of_exec ?_ p
    rcases hmode with ⟨rfl,rfl⟩ | ⟨rfl,rfl⟩
    · exact hd.redirect (show '<' ∈ ['<','>','+'] by decide)
    · exact hd.redirect (show '>' ∈ ['<','>','+'] by decide)
  | pipe left right ihl ihr =>
    have hd : Derives .pipe _ _ := Derives.bar (ihl h.1 .exec) (ihr h.2 .pipe)
    cases p with
    | line => exact (Shown.back_of_pipe hd).line_of_back
    | back => exact Shown.back_of_pipe hd
    | pipe => exact hd
    | exec => exact (Shown.line_of_back (Shown.back_of_pipe hd)).parens
  | list left right ihl ihr =>
    obtain ⟨u,k,t,hu,ht,hd⟩ := ihl h.1 .back
    have hseq := hd.seq k (ihr h.2 .line)
    rw [← ht,← append_assoc,← hu] at hseq
    cases p with
    | line => exact hseq
    | back => exact Shown.of_exec hseq.parens .back
    | pipe => exact hseq.parens.pipe
    | exec => exact hseq.parens
  | back cmd ih =>
    obtain ⟨u,k,t,hu,ht,hd⟩ := ih h .back
    have hback : Shown .back (cmd.unparse .back++[.sym '&']) (.back cmd) := by
      refine ⟨u,k+1,t,?_,?_,hd⟩
      · rw [hu,ampersands,ampersands,replicate_succ',append_assoc]
      · rw [ht,Function.iterate_succ_apply']
    cases p with
    | line => exact hback.line_of_back
    | back => exact hback
    | pipe => exact hback.line_of_back.parens.pipe
    | exec => exact hback.line_of_back.parens

theorem parens_valid (b : Bool) (h : ∀ t ∈ u, t.Valid) : ∀ t ∈ parens b u, t.Valid := by
  unfold parens
  split_ifs
  · refine forall_mem_cons.mpr ⟨show '(' ∈ operators by decide,?_⟩
    refine forall_mem_append.mpr ⟨h,fun t ht => ?_⟩
    rw [mem_singleton.mp ht]
    exact (show ')' ∈ operators by decide)
  · exact h

theorem unparse_valid (h : cmd.Printable) (p : Place) : ∀ t ∈ cmd.unparse p, t.Valid := by
  have hsym : ∀ c ∈ operators, (Token.sym c).Valid := fun c hc => hc
  induction cmd generalizing p with
  | exec =>
    intro t ht
    obtain ⟨w,hw,rfl⟩ := mem_map.mp ht
    exact h w hw
  | redir cmd file mode fd ih =>
    refine forall_mem_append.mpr ⟨ih h.1 _,?_⟩
    simp only [forall_mem_cons]
    refine ⟨hsym _ ?_,h.2.1,fun t ht => nomatch ht⟩
    split_ifs <;> decide
  | pipe left right ihl ihr | list left right ihl ihr =>
    refine parens_valid _ (forall_mem_append.mpr ⟨ihl h.1 _,?_⟩)
    exact forall_mem_cons.mpr ⟨hsym _ (by decide),ihr h.2 _⟩
  | back cmd ih =>
    refine parens_valid _ (forall_mem_append.mpr ⟨ih h _,?_⟩)
    exact forall_mem_cons.mpr ⟨hsym _ (by decide),fun t ht => nomatch ht⟩

theorem cstring_of_notMem {buf : List Char} (h : NUL ∉ buf) : cstring buf = buf := by
  refine takeWhile_eq_self_iff.mpr fun c hc => decide_eq_true fun he => h ?_
  rwa [← he]

theorem tokens_print (h : cmd.Printable) : tokens (cstring cmd.print) 0 = cmd.unparse .line := by
  have hvalid := unparse_valid h .line
  rw [Cmd.print,cstring_of_notMem (nul_notMem_render hvalid),tokens_render hvalid]

end

/-- The parser accepts its grammar. A command line is parsed without a panic if and only if its
tokens derive from `line` and no simple command has more than `MAXARGS-1` words, and the tree
is that of the derivation. The printed form of a tree gives it back. -/
theorem parsecmd_iff_derives {n : ℕ} {buf : List Char} (h : bound buf ≤ n) : parsecmd n buf ≠ stuck ∧
    (∀ t, (∃ r, parsecmd n buf = pure r ∧ strings r = t) ↔
      Derives .line (tokens (cstring buf) 0) t ∧ t.short) ∧
    ∀ r, parsecmd n buf = pure r → ∀ m, bound (strings r).print ≤ m →
      ∃ r', parsecmd m (strings r).print = pure r' ∧ strings r' = strings r := by
  refine ⟨parsecmd_ne_stuck h,fun t => ⟨?_,fun ⟨hd,hshort⟩ => parsecmd_complete h hd hshort⟩,
    fun r hr m hm => ?_⟩
  · rintro ⟨r,hr,rfl⟩
    exact parsecmd_sound hr
  · obtain ⟨hd,hshort⟩ := parsecmd_sound hr
    have hp := hd.printable (tokens_valid (nul_notMem_cstring buf) 0)
    refine parsecmd_complete hm ?_ hshort
    rw [tokens_print hp]
    exact unparse_shown hp .line

theorem parsecmd_of_run {n : ℕ} {buf : List Char} {t : Cmd (List Char)}
    (h : (parsecmd n buf).run.any (fun e => e.toOption.any fun r => strings r = t) = true) :
    ∃ r, parsecmd n buf = pure r ∧ strings r = t := by
  obtain ⟨e,he,h⟩ := (Option.any_eq_true _ _).mp h
  obtain ⟨r,hr,hs⟩ := (Option.any_eq_true _ _).mp h
  cases e with
  | error => cases hr
  | ok r' =>
    obtain rfl : r' = r := Option.some_injective _ hr
    exact ⟨r',he,of_decide_eq_true hs⟩

def shortLine : List Char := ['a','<','f',' ','b','|','(','c','&',')','>','>','g']

def shortTree : Cmd (List Char) :=
  .pipe (.redir (.exec [['a'],['b']]) ['f'] O_RDONLY 0)
    (.redir (.back (.exec [['c']])) ['g'] (O_WRONLY ||| O_CREATE) 1)

theorem shortLine_derives : Derives .line (tokens shortLine 0) shortTree ∧
    ∃ r, parsecmd (bound shortTree.print) shortTree.print = pure r ∧ strings r = shortTree := by
  obtain ⟨r,hr,hs⟩ : ∃ r, parsecmd (bound shortLine) shortLine = pure r ∧ strings r = shortTree :=
    parsecmd_of_run (by decide +kernel)
  obtain ⟨-,hiff,hprint⟩ := parsecmd_iff_derives (le_refl (bound shortLine))
  refine ⟨((hiff shortTree).mp ⟨r,hr,hs⟩).1,?_⟩
  have hback := hprint r hr
  rw [hs] at hback
  exact hback _ le_rfl

/-- The zeros of `nulterminate` stand at the ends of the words of the tree and inside the
buffer, each word is then read as the text of its token, and every `argv` has its null pointer. -/
theorem nulterminate_keeps_words {n : ℕ} {buf : List Char} {r : Cmd Span × List Char}
    (h : parsecmd n buf = pure r) :
    strings r = r.1.map (slice (cstring buf)) ∧ Derives .line (tokens (cstring buf) 0) (strings r) ∧
      r.2 = r.1.words.foldl (fun buf w => buf.set w.2 NUL) (buf++[NUL]) ∧
      (∀ w ∈ r.1.words, IsWord (cstring buf) w ∧ w.2 ≤ (cstring buf).length) ∧ r.1.short := by
  obtain ⟨s,hp,-,hbuf,hs⟩ := parsecmd_parsed h
  rw [nulterminate_eq] at hbuf
  exact ⟨hs,(parsecmd_sound h).1,hbuf,fun w hw => ⟨hp.words w hw,(hp.words w hw).le⟩,hp.short⟩

theorem nulterminate_keeps_words_adjacent : ∃ r, parsecmd (bound shortLine) shortLine = pure r ∧
    r.1.map (slice (cstring shortLine)) = shortTree ∧ strings r = shortTree := by
  obtain ⟨r,hr,hs⟩ : ∃ r, parsecmd (bound shortLine) shortLine = pure r ∧ strings r = shortTree :=
    parsecmd_of_run (by decide +kernel)
  exact ⟨r,hr,(nulterminate_keeps_words hr).1.symm.trans hs,hs⟩

end Xv6.Shell
