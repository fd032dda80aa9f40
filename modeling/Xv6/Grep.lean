import Xv6.Machine
import Xv6.Matcher

/-!
# grep

`grep` reads its input piece by piece into a buffer, writes the lines in it that match, and moves
the unfinished line behind them to the front. A step is one round of its loop, with the piece that
`read` has returned. A piece without a newline drops the unfinished line.
-/
namespace Xv6.Grep
open Machine List
open Function (update update_self update_of_ne)

def BUFSIZE : ℕ := 1024

/-- The place of `c` in the string at `s`, or nothing for a null pointer. No string in the buffer
is longer than the buffer. -/
def strchr (T : ℕ → Char) (c : Char) : ℕ → ℕ → Option ℕ
  | 0,_ => none
  | n+1,s => if T s = NUL then none else if T s = c then some s else strchr T c n (s+1)

def slice (T : ℕ → Char) (p q : ℕ) : List Char := (range (q-p)).map fun i => T (p+i)

/-- The buffer, the number of characters kept in it, and what has been written. -/
structure State where
  buf : ℕ → Char
  m : ℕ
  out : List Char

def start : State := ⟨fun _ => NUL,0,[]⟩

def store (T : ℕ → Char) (p : ℕ) (piece : List Char) : ℕ → Char :=
  fun i => if p ≤ i ∧ i < p+piece.length then piece.getD (i-p) NUL else T i

/-- `memmove` of `n` characters from `p` to the front. -/
def moveFront (T : ℕ → Char) (p n : ℕ) : ℕ → Char := fun i => if i < n then T (p+i) else T i

section
variable (R : ℕ → Char) (fuel re : ℕ)

/-- The loop over the lines in the buffer, from `p` on. -/
def lineLoop : ℕ → (ℕ → Char) → ℕ → List Char → Option ((ℕ → Char)×ℕ×List Char)
  | 0,_,_,_ => none
  | n+1,buf,p,out =>
    match strchr buf '\n' BUFSIZE p with
    | none => some (buf,p,out)
    | some q => do
        let buf := update buf q NUL
        if ← matchText R buf fuel re p then
          let buf := update buf q '\n'
          lineLoop n buf (q+1) (out++slice buf p (q+1))
        else lineLoop n buf (q+1) out

/-- One round for the piece that `read` has returned. -/
def step (s : State) (piece : List Char) : Option State := do
  let m := s.m+piece.length
  let buf := update (store s.buf s.m piece) m NUL
  let (buf,p,out) ← lineLoop R fuel re BUFSIZE buf 0 s.out
  let m := if p = 0 then 0 else m
  if m > 0 then some ⟨moveFront buf p (m-p),m-p,out⟩ else some ⟨buf,m,out⟩

/-- The pieces in which successive calls of `read` can return an input, until one returns zero. -/
def Reads : State → List Char → List (List Char) → Prop
  | s,input,[] => input = [] ∨ BUFSIZE-s.m-1 = 0
  | s,input,piece::pieces =>
    piece ≠ [] ∧ piece.length ≤ BUFSIZE-s.m-1 ∧
      ∃ rest, input = piece++rest ∧ ∀ s', step R fuel re s piece = some s' → Reads s' rest pieces

end

/-! ## Lines -/

def split : List Char → List (List Char)×List Char
  | [] => ([],[])
  | c::t =>
    let (ls,u) := split t
    if c = '\n' then ([]::ls,u)
    else match ls with
      | [] => ([],c::u)
      | l::ls => ((c::l)::ls,u)

def join (ls : List (List Char)) : List Char := ls.flatMap (·++['\n'])

def found (r : List Char) (ls : List (List Char)) : List Char := join (ls.filter (accepts r))

section
variable {l t u : List Char} {ls : List (List Char)}

theorem join_cons : join (l::ls) = l++ '\n'::join ls := by simp [join]

theorem split_line (hl : '\n' ∉ l) : split (l++ '\n'::t) = (l::(split t).1,(split t).2) := by
  induction l with
  | nil => simp [split]
  | cons c l ih =>
    rw [mem_cons,not_or] at hl
    rw [cons_append,split,ih hl.2]
    simp [Ne.symm hl.1]

theorem split_join (hls : ∀ l ∈ ls, '\n' ∉ l) (t : List Char) :
    split (join ls++t) = (ls++(split t).1,(split t).2) := by
  induction ls with
  | nil => rfl
  | cons l ls ih =>
    have hrest := ih fun l hl => hls l (mem_cons_of_mem _ hl)
    rw [join_cons,append_assoc,cons_append,split_line (hls l mem_cons_self),hrest]
    rfl

theorem split_spec (t : List Char) :
    t = join (split t).1++(split t).2 ∧ (∀ l ∈ (split t).1, '\n' ∉ l) ∧ '\n' ∉ (split t).2 := by
  induction t with
  | nil => simp [split,join]
  | cons c t ih =>
    rw [split]
    generalize split t = st at ih ⊢
    obtain ⟨ls,u⟩ := st
    obtain ⟨ht,hls,hu⟩ := ih
    dsimp only at ht hls hu ⊢
    by_cases hc : c = '\n'
    · subst hc
      rw [if_pos rfl,ht]
      refine ⟨by rw [join_cons]; rfl,?_,hu⟩
      intro l hl
      rcases mem_cons.mp hl with rfl | hl
      · exact not_mem_nil
      · exact hls l hl
    · rw [if_neg hc]
      cases ls with
      | nil =>
        refine ⟨by rw [ht]; rfl,nofun,?_⟩
        exact not_mem_cons_of_ne_of_not_mem (Ne.symm hc) hu
      | cons l =>
        refine ⟨by rw [ht,join_cons,join_cons]; rfl,?_,hu⟩
        intro l' hl'
        rcases mem_cons.mp hl' with rfl | hl'
        · exact not_mem_cons_of_ne_of_not_mem (Ne.symm hc) (hls l mem_cons_self)
        · exact hls l' (mem_cons_of_mem _ hl')

theorem split_append (a b : List Char) :
    split (a++b) = ((split a).1++(split ((split a).2++b)).1,(split ((split a).2++b)).2) := by
  obtain ⟨ha,hls,-⟩ := split_spec a
  rw [← split_join hls,← append_assoc,← ha]

theorem split_ne_nil (h : '\n' ∈ t) : (split t).1 ≠ [] := by
  intro hnil
  obtain ⟨ht,-,hu⟩ := split_spec t
  rw [hnil] at ht
  rw [ht] at h
  exact hu h

theorem found_append (r : List Char) (ls ls' : List (List Char)) :
    found r (ls++ls') = found r ls++found r ls' := by simp [found,join]

theorem found_cons (r : List Char) : found r (l::ls) = (if accepts r l then l++['\n'] else [])++found r ls := by
  by_cases h : accepts r l = true
  · simp [found,h,join]
  · simp [found,h,join]

end

/-! ## The loops -/

section
variable {T : ℕ → Char} {p n : ℕ} {l t u : List Char}

theorem strchr_line (h : Spells T p l) (hl : '\n' ∉ l) (hT : T (p+l.length) = '\n') (hn : l.length < n) :
    strchr T '\n' n p = some (p+l.length) := by
  induction l generalizing p n with
  | nil =>
    obtain ⟨n,rfl⟩ : ∃ k, n = k+1 := ⟨n-1,by simp only [length_nil] at hn; omega⟩
    have hTp : T p = '\n' := hT
    rw [strchr,hTp]
    rfl
  | cons c l ih =>
    simp only [length_cons] at hn hT ⊢
    obtain ⟨n,rfl⟩ : ∃ k, n = k+1 := ⟨n-1,by omega⟩
    rw [mem_cons,not_or] at hl
    have hadd : p+(l.length+1) = p+1+l.length := by omega
    rw [hadd] at hT ⊢
    rw [strchr,h.2.1,if_neg h.1,if_neg (Ne.symm hl.1)]
    exact ih h.2.2 hl.2 hT (by omega)

theorem strchr_none (h : Str T p u) (hu : '\n' ∉ u) : strchr T '\n' n p = none := by
  induction u generalizing p n with
  | nil =>
    cases n with
    | zero => rfl
    | succ => rw [strchr,if_pos (str_nil.mp h)]
  | cons c u ih =>
    obtain ⟨hc,hT,hrest⟩ := str_cons.mp h
    rw [mem_cons,not_or] at hu
    cases n with
    | zero => rfl
    | succ =>
      rw [strchr,hT,if_neg hc,if_neg (Ne.symm hu.1)]
      exact ih hrest hu.2

theorem slice_eq (h : Spells T p l) : slice T p (p+l.length) = l := by
  induction l generalizing p with
  | nil => simp [slice]
  | cons c l ih =>
    have hrest := ih h.2.2
    simp only [slice,Nat.add_sub_cancel_left] at hrest ⊢
    rw [length_cons,range_succ_eq_map,map_cons,map_map,Nat.add_zero,h.2.1]
    congr 1
    refine Eq.trans (map_congr_left fun i _ => ?_) hrest
    simp only [Function.comp,Nat.succ_eq_add_one]
    congr 1
    omega

theorem spells_store (hl : NUL ∉ l) : Spells (store T p l) p l := by
  refine spells_of_getD hl fun i hi => ?_
  rw [store,if_pos ⟨Nat.le_add_right p i,by omega⟩,Nat.add_sub_cancel_left]

end

section
variable {R : ℕ → Char} {fuel re : ℕ} {r : List Char}

theorem lineLoop_eq (hr : Str R re r) {ls : List (List Char)} {u : List Char} {n p : ℕ} {buf : ℕ → Char}
    {out : List Char} (hbuf : Str buf p (join ls++u)) (hls : ∀ l ∈ ls, '\n' ∉ l) (hu : '\n' ∉ u)
    (hn : ls.length < n) (hsize : (join ls).length ≤ BUFSIZE) (hfuel : r.length+BUFSIZE < fuel) :
    ∃ buf', lineLoop R fuel re n buf p out = some (buf',p+(join ls).length,out++found r ls) ∧
      ∀ i, p+(join ls).length ≤ i → buf' i = buf i := by
  induction ls generalizing n p buf out with
  | nil =>
    obtain ⟨n,rfl⟩ : ∃ k, n = k+1 := ⟨n-1,by omega⟩
    refine ⟨buf,?_,fun i _ => rfl⟩
    rw [lineLoop,strchr_none hbuf hu]
    simp [join,found]
  | cons l ls ih =>
    obtain ⟨n,rfl⟩ : ∃ k, n = k+1 := ⟨n-1,by omega⟩
    rw [join_cons] at hbuf hsize ⊢
    simp only [length_append,length_cons,append_assoc,cons_append] at hbuf hsize hn ⊢
    obtain ⟨hspell,hend⟩ := hbuf
    obtain ⟨hline,hnl,hT,hrest⟩ := spells_append.mp hspell
    have hl := hls l mem_cons_self
    have hq := strchr_line hline hl hT (n := BUFSIZE) (by omega)
    set q := p+l.length with hqdef
    -- the line ends in a zero while it is matched
    have hstr : Str (update buf q NUL) p l := by
      refine ⟨hline.congr fun i _ hi => update_of_ne (by omega) ..,?_⟩
      rw [← hqdef,update_self]
    have hmatch : matchText R (update buf q NUL) fuel re p = some (accepts r l) :=
      matchText_eq hr hstr (by omega)
    -- what stands behind it is not touched
    have hbehind : ∀ {buf' : ℕ → Char}, (∀ i, q+1 ≤ i → buf' i = buf i) → Str buf' (q+1) (join ls++u) := by
      intro buf' he
      refine ⟨hrest.congr fun i hi _ => he i hi,?_⟩
      rw [he _ (Nat.le_add_right _ _),← hend]
      congr 1
      simp only [length_append,length_cons]
      omega
    have hrestls : ∀ l ∈ ls, '\n' ∉ l := fun l hl => hls l (mem_cons_of_mem _ hl)
    rw [lineLoop,hq,found_cons]
    dsimp only
    rw [hmatch]
    cases hacc : accepts r l with
    | true =>
      have hkeep : ∀ i, q+1 ≤ i → update (update buf q NUL) q '\n' i = buf i := fun i hi => by
        rw [update_of_ne (by omega),update_of_ne (by omega)]
      obtain ⟨buf',hloop,hbuf'⟩ := @ih n (q+1) _ (out++slice (update (update buf q NUL) q '\n') p (q+1))
        (hbehind hkeep) hrestls (by omega) (by omega)
      have hwrite : slice (update (update buf q NUL) q '\n') p (q+1) = l++['\n'] := by
        have hspells : Spells (update (update buf q NUL) q '\n') p (l++['\n']) := by
          refine spells_append.mpr ⟨hstr.1.congr fun i _ hi => update_of_ne (by omega) ..,?_⟩
          exact ⟨by decide,update_self ..,trivial⟩
        have hslice := slice_eq hspells
        rwa [length_append,length_singleton,← Nat.add_assoc] at hslice
      refine ⟨buf',?_,fun i hi => ?_⟩
      · change lineLoop R fuel re n _ (q+1) _ = _
        rw [hloop,hwrite,if_pos rfl,append_assoc]
        congr 3
        omega
      · rw [hbuf' i (by omega),hkeep i (by omega)]
    | false =>
      have hkeep : ∀ i, q+1 ≤ i → update buf q NUL i = buf i := fun i hi => update_of_ne (by omega) ..
      obtain ⟨buf',hloop,hbuf'⟩ := @ih n (q+1) _ out (hbehind hkeep) hrestls (by omega) (by omega)
      refine ⟨buf',?_,fun i hi => ?_⟩
      · change lineLoop R fuel re n _ (q+1) _ = _
        rw [hloop,if_neg Bool.false_ne_true,nil_append]
        congr 3
        omega
      · rw [hbuf' i (by omega),hkeep i (by omega)]

structure Kept (s : State) (u : List Char) : Prop where
  spells : Spells s.buf 0 u
  length : s.m = u.length
  line : '\n' ∉ u

theorem join_length_ge (ls : List (List Char)) : ls.length ≤ (join ls).length := by
  induction ls with
  | nil => exact Nat.zero_le _
  | cons =>
    rw [join_cons,length_append,length_cons,length_cons]
    omega

theorem step_eq (hr : Str R re r) (hfuel : r.length+BUFSIZE < fuel) {s : State} {u piece : List Char}
    (h : Kept s u) (hnul : NUL ∉ piece) (hnl : '\n' ∈ piece) (hroom : piece.length ≤ BUFSIZE-s.m-1) :
    ∃ s', step R fuel re s piece = some s' ∧ Kept s' (split (u++piece)).2 ∧
      s'.out = s.out++found r (split (u++piece)).1 := by
  have hpos : 0 < piece.length := length_pos_iff.mpr (ne_nil_of_mem hnl)
  have hm := h.length
  obtain ⟨htext,hls,hu⟩ := split_spec (u++piece)
  have hne := split_ne_nil (mem_append_right u hnl)
  generalize split (u++piece) = st at htext hls hu hne ⊢
  obtain ⟨ls,u'⟩ := st
  dsimp only at htext hls hu hne ⊢
  have hlen : (join ls).length+u'.length = s.m+piece.length := by
    have hlen := congrArg List.length htext
    rw [length_append,length_append] at hlen
    omega
  have hbuf : Str (update (store s.buf s.m piece) (s.m+piece.length) NUL) 0 (join ls++u') := by
    rw [← htext]
    refine ⟨spells_append.mpr ⟨h.spells.congr fun i _ hi => ?_,?_⟩,?_⟩
    · rw [update_of_ne (by omega),store,if_neg (by omega)]
    · rw [Nat.zero_add,← hm]
      exact (spells_store hnul).congr fun i _ hi => update_of_ne (by omega) ..
    · rw [Nat.zero_add,length_append,← hm,update_self]
  have hlslen := join_length_ge ls
  obtain ⟨buf',hloop,hkeep⟩ := @lineLoop_eq _ _ _ _ hr ls u' BUFSIZE 0 _ s.out hbuf hls hu (by omega)
    (by omega) hfuel
  rw [Nat.zero_add] at hloop hkeep
  have hp : (join ls).length ≠ 0 := by
    have := length_pos_iff.mpr hne
    omega
  unfold step
  dsimp only
  rw [hloop]
  change ∃ s', (if (if (join ls).length = 0 then 0 else s.m+piece.length) > 0 then _ else _) = some s' ∧ _
  rw [if_neg hp,if_pos (by omega)]
  refine ⟨_,rfl,⟨?_,by dsimp only; omega,hu⟩,rfl⟩
  have hrest := (spells_append.mp hbuf.1).2
  refine hrest.move fun i hi => ?_
  simp only [moveFront,Nat.zero_add]
  rw [if_pos (by omega),hkeep _ (Nat.le_add_right _ _)]

theorem join_nul {ls : List (List Char)} (h : ∀ l ∈ ls, NUL ∉ l) : NUL ∉ join ls := by
  intro hmem
  obtain ⟨l,hl,hmem⟩ := mem_flatMap.mp hmem
  rcases List.mem_append.mp hmem with hmem | hmem
  · exact h l hl hmem
  · exact absurd (mem_singleton.mp hmem) (by decide)

theorem join_mem_newline {ls : List (List Char)} (h : '\n' ∉ join ls) : ls = [] := by
  cases ls with
  | nil => rfl
  | cons l =>
    rw [join_cons] at h
    exact absurd (mem_append_right l mem_cons_self) h

theorem unfinished_short {n : ℕ} {u rest : List Char} {ls : List (List Char)} (hu : '\n' ∉ u)
    (hjoin : u++rest = join ls) (hls : ∀ l ∈ ls, l.length < n) (hne : ls ≠ []) : u.length < n := by
  cases ls with
  | nil => exact absurd rfl hne
  | cons l =>
    rw [join_cons] at hjoin
    have hle : u.length ≤ l.length := by
      by_contra hlt
      refine hu ?_
      have hget := congrArg (fun t => t[l.length]?) hjoin
      simp only [getElem?_append_left (Nat.not_le.mp hlt),getElem?_append_right le_rfl,
        Nat.sub_self,getElem?_cons_zero] at hget
      exact mem_of_getElem? hget
    exact hle.trans_lt (hls l mem_cons_self)

theorem run_eq (hr : Str R re r) (hfuel : r.length+BUFSIZE < fuel) {s : State} {u rest : List Char}
    {ls pieces : List (List Char)} (h : Kept s u) (hjoin : u++rest = join ls)
    (hls : ∀ l ∈ ls, NUL ∉ l ∧ '\n' ∉ l ∧ l.length < BUFSIZE-1)
    (hreads : Reads R fuel re s rest pieces) (hnl : ∀ piece ∈ pieces, '\n' ∈ piece) :
    ∃ s', run (step R fuel re) s pieces = some s' ∧ s'.out = s.out++found r ls := by
  induction pieces generalizing s u rest ls with
  | nil =>
    have hnil : ls = [] := by
      by_contra hne
      have hshort := unfinished_short h.line hjoin (fun l hl => (hls l hl).2.2) hne
      have hm := h.length
      rcases hreads with rfl | hroom
      · rw [append_nil] at hjoin
        exact hne (join_mem_newline (hjoin ▸ h.line))
      · omega
    subst hnil
    exact ⟨s,rfl,(append_nil _).symm⟩
  | cons piece pieces ih =>
    obtain ⟨hne,hroom,rest',rfl,hnext⟩ := hreads
    have hnul : NUL ∉ piece := by
      have hall := join_nul fun l hl => (hls l hl).1
      rw [← hjoin] at hall
      exact fun hmem => hall (mem_append_right u (mem_append_left rest' hmem))
    obtain ⟨s₁,hstep,h₁,hout⟩ := step_eq hr hfuel h hnul (hnl piece mem_cons_self) hroom
    -- the lines that end in this piece come first
    have hlines : ∀ l ∈ ls, '\n' ∉ l := fun l hl => (hls l hl).2.1
    have hall := split_join hlines []
    rw [append_nil,← hjoin,← append_assoc,split_append] at hall
    obtain ⟨hfirst,hlast⟩ := Prod.mk.inj hall
    have hleft := (split_spec ((split (u++piece)).2++rest')).1
    rw [hlast] at hleft
    have heq : ls = (split (u++piece)).1++(split ((split (u++piece)).2++rest')).1 := by
      rw [hfirst]
      exact (append_nil ls).symm
    obtain ⟨s',hrun,hout'⟩ := ih h₁ (hleft.trans (append_nil _))
      (fun l hl => hls l (by rw [heq]; exact mem_append_right _ hl)) (hnext s₁ hstep)
      fun q hq => hnl q (mem_cons_of_mem _ hq)
    refine ⟨s',?_,?_⟩
    · rw [run,hstep]
      exact hrun
    · rw [hout',hout,append_assoc,← found_append,← heq]

end

end Xv6.Grep
