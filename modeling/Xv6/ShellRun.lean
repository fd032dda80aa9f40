import Mathlib.Logic.Function.Basic
import Xv6.ShellParser

/-!
# Running a command

`runcmd` with the descriptors of the processes it runs in. The result is the programs that are
executed, each with its words and what its descriptors are open on. A command that only redirects
goes through its tree from the outside, and each node closes a descriptor and opens its file in the
lowest free place. The first redirection in the text is the outermost of the tree and is made last.
-/
namespace Xv6.Shell
open List
open Function (update update_of_ne)

def NOFILE : ℕ := 16

/-- What a descriptor is open on. A pipe is known by the place in the tree that makes it. -/
inductive File (ω : Type)
  | inherited (k : ℕ)
  | opened (name : ω) (mode : ℕ)
  | pipe (place : List Bool) (write : Bool)
  deriving DecidableEq

abbrev Files (ω : Type) := ℕ → Option (File ω)

section
variable {ω : Type}

def fdalloc (fs : Files ω) (f : File ω) : Option (ℕ×Files ω) :=
  ((range NOFILE).find? fun fd => (fs fd).isNone).map fun fd => (fd,update fs fd (some f))

def close (fs : Files ω) (fd : ℕ) : Files ω := update fs fd none

def dup (fs : Files ω) (fd : ℕ) : Files ω :=
  match fs fd with
  | none => fs
  | some f => ((fdalloc fs f).map Prod.snd).getD fs

def makePipe (fs : Files ω) (place : List Bool) : Option (ℕ×ℕ×Files ω) := do
  let (p0,fs) ← fdalloc fs (.pipe place false)
  let (p1,fs) ← fdalloc fs (.pipe place true)
  some (p0,p1,fs)

/-- A child of a pipe puts the end `p` in the place of `fd`. -/
def takeEnd (fs : Files ω) (fd p p0 p1 : ℕ) : Files ω := close (close (dup (close fs fd) p) p0) p1

variable (opens : ω → ℕ → Bool)

/-- `opens` says which calls of `open` succeed. -/
def runcmd : Cmd ω → List Bool → Files ω → List (List ω×Files ω)
  | .exec argv,_,fs => if argv = [] then [] else [(argv,fs)]
  | .redir cmd file mode fd,place,fs =>
    if opens file mode then
      match fdalloc (close fs fd) (.opened file mode) with
      | none => []
      | some (_,fs) => runcmd cmd place fs
    else []
  | .list left right,place,fs => runcmd left (false::place) fs++runcmd right (true::place) fs
  | .pipe left right,place,fs =>
    match makePipe fs place with
    | none => []
    | some (p0,p1,fs) =>
      runcmd left (false::place) (takeEnd fs 1 p1 p0 p1)++runcmd right (true::place) (takeEnd fs 0 p0 p0 p1)
  | .back cmd,place,fs => runcmd cmd (false::place) fs

/-! ## Redirections -/

def target (c : Char) : ℕ := if c = '<' then 0 else 1

def openMode (c : Char) : ℕ := if c = '<' then O_RDONLY else O_WRONLY ||| O_CREATE

def redirsOf : List Token → List (Redir (List Char))
  | [] => []
  | .word _::ts => redirsOf ts
  | .sym c::ts =>
    match ts with
    | .word w::_ => if c ∈ ['<','>','+'] then (c,w)::redirsOf ts else redirsOf ts
    | _ => redirsOf ts

def Cmd.redirs : Cmd ω → List (ω×ℕ×ℕ)
  | .redir cmd file mode fd => cmd.redirs++[(file,mode,fd)]
  | _ => []

def Cmd.argv : Cmd ω → Option (List ω)
  | .exec argv => some argv
  | .redir cmd _ _ _ => cmd.argv
  | _ => none

variable {opens}

theorem fdalloc_close {fs : Files ω} (h0 : fs 0 ≠ none) {fd : ℕ} (hfd : fd < 2) (f : File ω) :
    fdalloc (close fs fd) f = some (fd,update fs fd (some f)) := by
  have hrange : range NOFILE = 0::1::(range 14).map (·+2) := rfl
  have hfind : ((range NOFILE).find? fun i => (close fs fd i).isNone) = some fd := by
    rw [hrange]
    obtain rfl | rfl : fd = 0 ∨ fd = 1 := by omega
    · rw [find?_cons_of_pos]
      simp [close]
    · rw [find?_cons_of_neg,find?_cons_of_pos]
      · simp [close]
      · simp [close,h0]
  rw [fdalloc,hfind,Option.map_some,close,Function.update_idem]

theorem runcmd_redirs {cmd : Cmd ω} {argv : List ω} (hopens : ∀ f m, opens f m = true)
    (hargv : cmd.argv = some argv) (hne : argv ≠ []) (hfd : ∀ x ∈ cmd.redirs, x.2.2 < 2) {fs : Files ω}
    (h0 : fs 0 ≠ none) (place : List Bool) :
    ∃ fs', runcmd opens cmd place fs = [(argv,fs')] ∧ ∀ d, fs' d =
      match cmd.redirs.find? fun x => x.2.2 = d with
      | some x => some (.opened x.1 x.2.1)
      | none => fs d := by
  induction cmd generalizing fs with
  | exec =>
    cases hargv
    exact ⟨fs,if_neg hne,fun d => rfl⟩
  | redir cmd file mode fd ih =>
    simp only [Cmd.redirs,List.mem_append,mem_singleton] at hfd
    have hfd' : fd < 2 := hfd _ (.inr rfl)
    have hopen : update fs fd (some (File.opened file mode)) 0 ≠ none := by
      by_cases hzero : 0 = fd
      · simp [← hzero]
      · rwa [update_of_ne hzero]
    obtain ⟨fs',hrun,hfs'⟩ := ih hargv (fun x hx => hfd x (.inl hx)) hopen
    refine ⟨fs',?_,fun d => ?_⟩
    · rw [runcmd,if_pos (hopens file mode),fdalloc_close h0 hfd']
      exact hrun
    · rw [hfs' d,Cmd.redirs,find?_append]
      cases hfind : cmd.redirs.find? fun x => x.2.2 = d with
      | some => rfl
      | none =>
        by_cases hd : fd = d
        · subst hd
          simp
        · simp [hd,update_of_ne (Ne.symm hd)]
  | pipe | list | back => cases hargv

end

section
variable {ω : Type} {cmd : Cmd ω}

def Redir.node (r : Redir ω) : ω×ℕ×ℕ := (r.2,openMode r.1,target r.1)

theorem Cmd.redirs_redirect {r : Redir ω} (h : r.Valid) :
    (cmd.redirect r.1 r.2).redirs = cmd.redirs++[r.node] := by
  obtain ⟨c,w⟩ := r
  have hc : c = '<' ∨ c = '>' ∨ c = '+' := by simpa [Redir.Valid] using h
  rcases hc with rfl | rfl | rfl
  · rfl
  · rfl
  · rfl

theorem Cmd.redirs_redirects {rs : List (Redir ω)} (h : ∀ r ∈ rs, r.Valid) :
    (cmd.redirects rs).redirs = cmd.redirs++rs.map Redir.node := by
  induction rs generalizing cmd with
  | nil => exact (append_nil _).symm
  | cons r rs ih =>
    refine (ih fun r hr => h r (mem_cons_of_mem _ hr)).trans ?_
    rw [Cmd.redirs_redirect (h r mem_cons_self),append_assoc]
    rfl

theorem Cmd.redirs_addArg (w : ω) : (cmd.addArg w).redirs = cmd.redirs := by
  induction cmd with
  | exec | pipe | list | back => rfl
  | redir cmd file mode fd ih => exact congrArg (·++[(file,mode,fd)]) ih

theorem Cmd.redirs_arguments {args : Args ω} (h : ∀ a ∈ args, ∀ r ∈ a.2, r.Valid) :
    (cmd.arguments args).redirs = cmd.redirs++(args.flatMap Prod.snd).map Redir.node := by
  induction args generalizing cmd with
  | nil => exact (append_nil _).symm
  | cons a args ih =>
    refine (ih fun a ha => h a (mem_cons_of_mem _ ha)).trans ?_
    rw [Cmd.redirs_redirects (h a mem_cons_self),Cmd.redirs_addArg,flatMap_cons,map_append, append_assoc]

theorem Cmd.argv_redirect (c : Char) (w : ω) : (cmd.redirect c w).argv = cmd.argv := by
  unfold Cmd.redirect
  split_ifs <;> rfl

theorem Cmd.argv_redirects (rs : List (Redir ω)) : (cmd.redirects rs).argv = cmd.argv := by
  induction rs generalizing cmd with
  | nil => rfl
  | cons r rs ih => exact ih.trans (Cmd.argv_redirect r.1 r.2)

end

theorem redirsOf_pair (c : Char) (w : List Char) (ts : List Token) :
    redirsOf (.sym c::.word w::ts) = (if c ∈ ['<','>','+'] then [(c,w)] else [])++redirsOf ts := by
  rw [redirsOf]
  split_ifs <;> rfl

theorem redirsOf_other {c : Char} (hc : c ∉ ['<','>','+']) (ts : List Token) :
    redirsOf (.sym c::ts) = redirsOf ts := by
  cases ts with
  | nil => rfl
  | cons t =>
    cases t with
    | sym => rfl
    | word =>
      rw [redirsOf_pair,if_neg hc]
      rfl

theorem redirsOf_append_sym (u v : List Token) (c : Char) :
    redirsOf (u++.sym c::v) = redirsOf u++redirsOf (.sym c::v) := by
  induction u with
  | nil => rfl
  | cons t u ih =>
    cases t with
    | word => exact ih
    | sym =>
      cases u with
      | nil => rfl
      | cons t u =>
        cases t with
        | sym => exact ih
        | word =>
          have hrest : redirsOf (u++.sym c::v) = redirsOf u++redirsOf (.sym c::v) := ih
          rw [cons_append,cons_append,redirsOf_pair,redirsOf_pair,hrest,append_assoc]

theorem redirsOf_redirTokens {rs : List (Redir (List Char))} (h : ∀ r ∈ rs, r.Valid) (v : List Token) :
    redirsOf (redirTokens rs++v) = rs++redirsOf v := by
  induction rs with
  | nil => rfl
  | cons r rs ih =>
    have hrest := ih fun r hr => h r (mem_cons_of_mem _ hr)
    have hr : r.1 ∈ ['<','>','+'] := h r mem_cons_self
    change redirsOf (.sym r.1::.word r.2::(redirTokens rs++v)) = _
    rw [redirsOf_pair,if_pos hr,hrest]
    rfl

theorem redirsOf_argTokens {args : Args (List Char)} (h : ∀ a ∈ args, ∀ r ∈ a.2, r.Valid) :
    redirsOf (argTokens args) = args.flatMap Prod.snd := by
  induction args with
  | nil => rfl
  | cons a args ih =>
    have hrest := ih fun a ha => h a (mem_cons_of_mem _ ha)
    change redirsOf (.word a.1::redirTokens a.2++argTokens args) = _
    rw [cons_append,redirsOf,redirsOf_redirTokens (h a mem_cons_self),hrest,flatMap_cons]

theorem Cmd.argv_back {ω : Type} {cmd : Cmd ω} {argv : List ω} {k : ℕ}
    (h : (Cmd.back^[k] cmd).argv = some argv) : k = 0 := by
  cases k with
  | zero => rfl
  | succ =>
    rw [Function.iterate_succ_apply'] at h
    cases h

theorem Derives.redirs {X : Nonterminal} {u : List Token} {t : Cmd (List Char)} {argv : List (List Char)}
    (h : Derives X u t) (hargv : t.argv = some argv) : t.redirs = (redirsOf u).map Redir.node := by
  induction h with
  | line k _ ih =>
    obtain rfl := Cmd.argv_back hargv
    rw [show ampersands 0 = [] from rfl,append_nil]
    exact ih hargv
  | seq | bar => cases hargv
  | pipe _ ih => exact ih hargv
  | @block u t rs _ hrs ih =>
    rw [Cmd.argv_redirects] at hargv
    have hout : redirsOf (redirTokens rs) = rs := by
      have hall := redirsOf_redirTokens hrs []
      rwa [append_nil,redirsOf,append_nil] at hall
    rw [Cmd.redirs_redirects hrs,ih hargv,redirsOf_append_sym,redirsOf_other (by decide),
      redirsOf_other (by decide),hout,map_append]
  | @simple rs args hrs hargs =>
    rw [Cmd.redirs_arguments hargs,Cmd.redirs_redirects hrs,redirsOf_redirTokens hrs,redirsOf_argTokens hargs,
      map_append]
    rfl

def firstRedir (d : ℕ) (rs : List (Redir (List Char))) : Option (Redir (List Char)) :=
  rs.find? fun r => target r.1 = d

def lastRedir (d : ℕ) (rs : List (Redir (List Char))) : Option (Redir (List Char)) :=
  rs.reverse.find? fun r => target r.1 = d

theorem target_lt (c : Char) : target c < 2 := by
  unfold target
  split_ifs <;> omega

theorem find_node (d : ℕ) (rs : List (Redir (List Char))) :
    (rs.map Redir.node).find? (fun x => x.2.2 = d) = (firstRedir d rs).map Redir.node := by
  rw [find?_map]
  rfl

def console : Files (List Char) := fun d => if d < 3 then some (.inherited d) else none

def onceEach : List Char := ['(','e','<','a',')','>','b']

def twice : List Char := ['e','>','a','>','b']

end Xv6.Shell
