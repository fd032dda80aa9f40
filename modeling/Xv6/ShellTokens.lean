import Mathlib.Tactic

/-!
# The shell's tokens

`gettoken` and `peek` of `sh.c` move a cursor over a command string. A pointer into the string is
the number of characters in front of it, and the character at its end is the terminating zero.
`tokens cs s` collects what repeated calls of `gettoken` return from the cursor `s` on; the parser
is understood through this list.
-/
namespace Xv6.Shell
open List

def whitespace : List Char := [' ','\t','\r','\n','\x0b']

def symbols : List Char := ['<','|','>','&',';','(',')']

abbrev NUL : Char := '\x00'

/-- A test of the characters of a list looks at these characters only. -/
instance (priority := 2000) decidableAllOf {p : Char → Prop} [DecidablePred p] (l : List Char) :
    Decidable (∀ c ∈ l, p c) := decidableBAll p l

section
variable (cs : List Char)

def charAt (s : ℕ) : Char := cs.getD s NUL

def advance (p : Char → Bool) (s : ℕ) : ℕ := s+((cs.drop s).takeWhile p).length

def skip (s : ℕ) : ℕ := advance cs (· ∈ whitespace) s

def wordChar (c : Char) : Bool := c ∉ whitespace ∧ c ∉ symbols

/-- What `gettoken` returns and leaves in its pointer arguments. -/
structure Got where
  ret : Char
  q : ℕ
  eq : ℕ
  ps : ℕ

def gettoken (ps : ℕ) : Got :=
  let q := skip cs ps
  let c := charAt cs q
  let (ret,eq) :=
    if c = NUL then (c,q)
    else if c ∈ ['|','(',')',';','&','<'] then (c,q+1)
    else if c = '>' then
      if charAt cs (q+1) = '>' then ('+',q+2) else (c,q+1)
    else ('a',advance cs wordChar q)
  ⟨ret,q,eq,skip cs eq⟩

/-- The moved cursor, and whether the character there is one of `toks`. -/
def peek (ps : ℕ) (toks : List Char) : ℕ × Bool :=
  let s := skip cs ps
  (s,charAt cs s ≠ NUL ∧ charAt cs s ∈ toks)

/-- A token; a symbol is given by the result of `gettoken`, which is `+` for `>>`. -/
inductive Token where
  | sym (c : Char)
  | word (w : List Char)
  deriving DecidableEq

def slice (w : ℕ × ℕ) : List Char := (cs.drop w.1).take (w.2-w.1)

def Got.token (g : Got) : Token := if g.ret = 'a' then .word (slice cs (g.q,g.eq)) else .sym g.ret

def tokensFrom : ℕ → ℕ → List Token
  | 0,_ => []
  | n+1,s =>
    let g := gettoken cs s
    if g.ret = NUL then [] else g.token cs::tokensFrom n g.ps

/-- The tokens from the cursor `s` on. Each takes at least one character. -/
def tokens (s : ℕ) : List Token := tokensFrom cs (cs.length-s) s

/-- The pointers to the ends of a longest word. -/
structure IsWord (w : ℕ × ℕ) : Prop where
  lt : w.1 < w.2
  le : w.2 ≤ cs.length
  inside : ∀ c ∈ slice cs w, wordChar c
  stop : w.2 < cs.length → ¬wordChar (charAt cs w.2)

end

section
variable {cs : List Char} {s : ℕ}

theorem le_advance (p : Char → Bool) : s ≤ advance cs p s := Nat.le_add_right _ _

theorem drop_length_takeWhile (p : Char → Bool) (l : List Char) :
    l.drop (l.takeWhile p).length = l.dropWhile p := by
  induction l with
  | nil => rfl
  | cons c l ih => by_cases hc : p c <;> simp [hc,ih]

theorem takeWhile_dropWhile (p : Char → Bool) (l : List Char) : (l.dropWhile p).takeWhile p = [] := by
  induction l with
  | nil => rfl
  | cons c l ih => by_cases hc : p c <;> simp [hc,ih]

theorem drop_advance (p : Char → Bool) : cs.drop (advance cs p s) = (cs.drop s).dropWhile p := by
  rw [advance,← drop_drop,drop_length_takeWhile]

theorem charAt_eq : charAt cs s = (cs.drop s).headD NUL := by
  simp [charAt,head?_drop]

theorem not_charAt_advance (p : Char → Bool) (h : advance cs p s < cs.length) :
    ¬p (charAt cs (advance cs p s)) := by
  have hne : (cs.drop s).dropWhile p ≠ [] := by
    rw [← drop_advance]
    simpa using h
  have hhead := head_dropWhile_not p hne
  rw [charAt_eq,drop_advance,headD_eq_head?_getD,head?_eq_some_head hne]
  simpa using hhead

theorem advance_advance (p : Char → Bool) : advance cs p (advance cs p s) = advance cs p s := by
  have h : ((cs.drop (advance cs p s)).takeWhile p) = [] := by
    rw [drop_advance]
    exact takeWhile_dropWhile p _
  rw [advance,h]
  rfl

theorem charAt_ne_nul (hn : NUL ∉ cs) : charAt cs s ≠ NUL ↔ s < cs.length := by
  constructor
  · intro h
    by_contra hs
    exact h (by simp [charAt,getElem?_eq_none (not_lt.mp hs)])
  · intro hs he
    refine hn ?_
    have hc : charAt cs s = cs.get ⟨s,hs⟩ := by simp [charAt,hs]
    exact he ▸ hc ▸ cs.get_mem ⟨s,hs⟩

def operators : List Char := ['|','(',')',';','&','<','>','+']

def leading (c : Char) : Char := if c = '+' then '>' else c

theorem isWord_advance (hs : s < cs.length) (hw : wordChar (charAt cs s)) :
    IsWord cs (s,advance cs wordChar s) := by
  have hdrop : cs.drop s = charAt cs s::cs.drop (s+1) := by
    rw [drop_eq_getElem_cons hs]
    simp [charAt,hs]
  have hlen : ((cs.drop s).takeWhile wordChar).length ≤ cs.length-s := by
    rw [← length_drop]
    exact ( takeWhile_prefix _).length_le
  refine ⟨?_,?_,?_,fun h => not_charAt_advance _ h⟩
  · rw [hdrop,takeWhile_cons_of_pos hw,length_cons] at hlen
    simp only [advance,hdrop,takeWhile_cons_of_pos hw,length_cons]
    omega
  · simp only [advance]
    omega
  · intro c hc
    have hsl : slice cs (s,advance cs wordChar s) = (cs.drop s).takeWhile wordChar := by
      simp only [slice,advance,Nat.add_sub_cancel_left]
      exact (List.prefix_iff_eq_take.mp ( takeWhile_prefix _)).symm
    rw [hsl] at hc
    exact List.all_eq_true.mp (all_takeWhile) c hc

/-- What `gettoken` can find: the end, a symbol or a word. -/
inductive Lexed (cs : List Char) (g : Got) : Prop
  | stop : g.ret = NUL → cs.length ≤ g.q → Lexed cs g
  | sym : g.ret ∈ operators → g.q < g.eq → g.eq ≤ cs.length → charAt cs g.q = leading g.ret → Lexed cs g
  | word : g.ret = 'a' → charAt cs g.q ∉ symbols → IsWord cs (g.q,g.eq) → Lexed cs g

theorem gettoken_lexed (hn : NUL ∉ cs) (s : ℕ) : Lexed cs (gettoken cs s) := by
  have hq : (gettoken cs s).q = skip cs s := rfl
  by_cases hend : charAt cs (skip cs s) = NUL
  · have hlen : cs.length ≤ skip cs s := not_lt.mp fun h => (charAt_ne_nul hn).mpr h hend
    exact .stop (by simp [gettoken,hend]) hlen
  have hlt : skip cs s < cs.length := (charAt_ne_nul hn).mp hend
  have hblank : charAt cs (skip cs s) ∉ whitespace :=
    fun h => not_charAt_advance (· ∈ whitespace) hlt (decide_eq_true h)
  by_cases hop : charAt cs (skip cs s) ∈ ['|','(',')',';','&','<']
  · have hg : gettoken cs s = ⟨charAt cs (skip cs s),skip cs s,skip cs s+1,skip cs (skip cs s+1)⟩ := by
      simp only [gettoken,if_neg hend,if_pos hop]
    rw [hg]
    refine .sym ?_ (Nat.lt_succ_self _) hlt ?_
    · simp only [operators,mem_cons,not_mem_nil,or_false] at hop ⊢
      tauto
    · have hplus : charAt cs (skip cs s) ≠ '+' := fun he => by
        rw [he] at hop
        revert hop
        decide
      exact (if_neg hplus).symm
  by_cases hgt : charAt cs (skip cs s) = '>'
  · by_cases hnext : charAt cs (skip cs s+1) = '>'
    · have hg : gettoken cs s = ⟨'+',skip cs s,skip cs s+2,skip cs (skip cs s+2)⟩ := by
        simp only [gettoken,if_neg hend,if_neg hop,if_pos hgt,if_pos hnext]
      have hlt' : skip cs s+1 < cs.length := (charAt_ne_nul hn).mp (by rw [hnext]; decide)
      rw [hg]
      exact .sym (show '+' ∈ operators by decide) (Nat.lt_add_of_pos_right two_pos) hlt' hgt
    · have hg : gettoken cs s = ⟨'>',skip cs s,skip cs s+1,skip cs (skip cs s+1)⟩ := by
        simp only [gettoken,if_neg hend,if_neg hop,if_pos hgt,if_neg hnext]
        rw [hgt]
      rw [hg]
      exact .sym (show '>' ∈ operators by decide) (Nat.lt_succ_self _) hlt hgt
  · have hsym : charAt cs (skip cs s) ∉ symbols := by
      simp only [symbols,mem_cons,not_mem_nil,or_false] at hop ⊢
      tauto
    have hword : wordChar (charAt cs (skip cs s)) := by simp [wordChar,hblank,hsym]
    have hg : gettoken cs s = ⟨'a',skip cs s,advance cs wordChar (skip cs s),
        skip cs (advance cs wordChar (skip cs s))⟩ := by
      simp only [gettoken,if_neg hend,if_neg hop,if_neg hgt]
    rw [hg]
    exact .word rfl hsym (isWord_advance hlt hword)

theorem skip_skip : skip cs (skip cs s) = skip cs s := advance_advance _

theorem gettoken_skip : gettoken cs (skip cs s) = gettoken cs s := by
  simp only [gettoken,skip_skip]

theorem gettoken_lt (hn : NUL ∉ cs) (h : (gettoken cs s).ret ≠ NUL) :
    s < cs.length ∧ s < (gettoken cs s).ps := by
  have hq : s ≤ (gettoken cs s).q := le_advance _
  have hps : (gettoken cs s).eq ≤ (gettoken cs s).ps := le_advance _
  cases gettoken_lexed hn s with
  | stop hret => exact absurd hret h
  | sym => omega
  | word _ _ hw =>
    have hlt := hw.lt
    have hle := hw.le
    simp only at hlt hle
    omega

theorem advance_le (p : Char → Bool) (h : s ≤ cs.length) : advance cs p s ≤ cs.length := by
  have hlen : ((cs.drop s).takeWhile p).length ≤ (cs.drop s).length :=
    ( takeWhile_prefix _).length_le
  rw [length_drop] at hlen
  unfold advance
  omega

theorem skip_le (h : s ≤ cs.length) : skip cs s ≤ cs.length := advance_le _ h

theorem gettoken_end (hn : NUL ∉ cs) (h : cs.length ≤ (gettoken cs s).q) :
    (gettoken cs s).eq = skip cs s := by
  have hend : charAt cs (skip cs s) = NUL := by
    by_contra hne
    exact absurd ((charAt_ne_nul hn).mp hne) (not_lt.mpr h)
  simp [gettoken,hend]

theorem gettoken_ps_le (hn : NUL ∉ cs) (h : s ≤ cs.length) : (gettoken cs s).ps ≤ cs.length := by
  refine skip_le ?_
  cases gettoken_lexed hn s with
  | stop _ hlen => exact (gettoken_end hn hlen).trans_le (skip_le h)
  | sym _ _ hle => exact hle
  | word _ _ hw => exact hw.le

theorem gettoken_ret_end (hn : NUL ∉ cs) (h : cs.length ≤ s) : (gettoken cs s).ret = NUL := by
  by_contra hret
  exact absurd (gettoken_lt hn hret).1 (not_lt.mpr h)

theorem tokensFrom_eq (hn : NUL ∉ cs) {n m : ℕ} (h : cs.length-s ≤ n) (h' : cs.length-s ≤ m) :
    tokensFrom cs n s = tokensFrom cs m s := by
  induction n generalizing s m with
  | zero =>
    cases m with
    | zero => rfl
    | succ => simp [tokensFrom,gettoken_ret_end hn (by omega : cs.length ≤ s)]
  | succ n ih =>
    cases m with
    | zero => simp [tokensFrom,gettoken_ret_end hn (by omega : cs.length ≤ s)]
    | succ m =>
      by_cases hret : (gettoken cs s).ret = NUL
      · simp [tokensFrom,hret]
      · have hlt := gettoken_lt hn hret
        simp only [tokensFrom,hret,if_false]
        rw [ih (m := m) (by omega) (by omega)]

theorem tokens_eq (hn : NUL ∉ cs) (s : ℕ) : tokens cs s =
    if (gettoken cs s).ret = NUL then [] else
      (gettoken cs s).token cs::tokens cs (gettoken cs s).ps := by
  unfold tokens
  by_cases hret : (gettoken cs s).ret = NUL
  · rw [if_pos hret]
    cases cs.length-s with
    | zero => rfl
    | succ => simp [tokensFrom,hret]
  · have hlt := gettoken_lt hn hret
    obtain ⟨n,hlen⟩ : ∃ n, cs.length-s = n+1 := ⟨cs.length-s-1,by omega⟩
    rw [if_neg hret,hlen,tokensFrom,if_neg hret]
    rw [tokensFrom_eq hn (n := n) (m := cs.length-(gettoken cs s).ps) (by omega) le_rfl]

@[simp] theorem tokens_skip (hn : NUL ∉ cs) : tokens cs (skip cs s) = tokens cs s := by
  rw [tokens_eq hn,tokens_eq hn s,gettoken_skip]

def Token.ret : Token → Char
  | .sym c => c
  | .word _ => 'a'

theorem length_le_skip (hn : NUL ∉ cs) (h : (gettoken cs s).ret = NUL) : cs.length ≤ skip cs s := by
  cases gettoken_lexed hn s with
  | stop _ hlen => exact hlen
  | sym hop =>
    rw [h] at hop
    exact absurd hop (by decide)
  | word ha =>
    rw [h] at ha
    exact absurd ha (by decide)

theorem tokens_ps_of_nul (hn : NUL ∉ cs) (h : (gettoken cs s).ret = NUL) :
    tokens cs (gettoken cs s).ps = [] := by
  have hnil : tokens cs s = [] := by rw [tokens_eq hn,if_pos h]
  have hps : (gettoken cs s).ps = skip cs (gettoken cs s).eq := rfl
  rw [hps,gettoken_end hn (length_le_skip hn h),tokens_skip hn,tokens_skip hn,hnil]

theorem gettoken_of_nil (hn : NUL ∉ cs) (h : tokens cs s = []) : (gettoken cs s).ret = NUL := by
  by_contra hret
  rw [tokens_eq hn,if_neg hret] at h
  cases h

theorem gettoken_of_cons (hn : NUL ∉ cs) {t : Token} {L : List Token} (h : tokens cs s = t::L) :
    (gettoken cs s).ret = t.ret ∧ tokens cs (gettoken cs s).ps = L ∧
      (∀ c, t = .sym c → c ∈ operators ∧ charAt cs (skip cs s) = leading c) ∧
      ∀ w, t = .word w → charAt cs (skip cs s) ∉ symbols ∧
        IsWord cs ((gettoken cs s).q,(gettoken cs s).eq) ∧
        slice cs ((gettoken cs s).q,(gettoken cs s).eq) = w := by
  rw [tokens_eq hn] at h
  split_ifs at h with hret
  obtain ⟨rfl,rfl⟩ := List.cons.inj h
  cases gettoken_lexed hn s with
  | stop hr => exact absurd hr hret
  | sym hop _ _ hlead =>
    have ha : (gettoken cs s).ret ≠ 'a' := fun he => by
      rw [he] at hop
      revert hop
      decide
    have ht : (gettoken cs s).token cs = .sym (gettoken cs s).ret := if_neg ha
    rw [ht]
    refine ⟨rfl,rfl,fun c hc => ?_,fun w hw => (nomatch hw)⟩
    obtain rfl := Token.sym.inj hc
    exact ⟨hop,hlead⟩
  | word ha hsym hw =>
    have ht : (gettoken cs s).token cs = .word (slice cs ((gettoken cs s).q,(gettoken cs s).eq)) :=
      if_pos ha
    rw [ht]
    refine ⟨ha,rfl,fun c hc => (nomatch hc),fun w hw' => ⟨hsym,hw,?_⟩⟩
    exact Token.word.inj hw'

/-- Does a token begin with one of the symbols in `toks`? -/
def Token.starts (toks : List Char) : Token → Bool
  | .sym c => leading c ∈ toks
  | .word _ => false

theorem peek_eq (hn : NUL ∉ cs) {toks : List Char} (htoks : ∀ c ∈ toks, c ∈ symbols) :
    peek cs s toks = (skip cs s,(tokens cs s).head?.any (Token.starts toks)) := by
  refine Prod.ext rfl ?_
  cases h : tokens cs s with
  | nil =>
    have hnul : charAt cs (skip cs s) = NUL := by
      by_contra hne
      exact absurd ((charAt_ne_nul hn).mp hne) (not_lt.mpr (length_le_skip hn (gettoken_of_nil hn h)))
    simp [peek,hnul]
  | cons t =>
    obtain ⟨-,-,hsym,hword⟩ := gettoken_of_cons hn h
    cases t with
    | sym c =>
      obtain ⟨hop,hlead⟩ := hsym c rfl
      have hnul : leading c ≠ NUL := by
        simp only [operators,mem_cons,not_mem_nil,or_false] at hop
        rcases hop with rfl | rfl | rfl | rfl | rfl | rfl | rfl | rfl <;> decide
      simp [peek,hlead,hnul,Token.starts]
    | word w =>
      have hout := (hword w rfl).1
      have hnot : charAt cs (skip cs s) ∉ toks := fun hm => hout (htoks _ hm)
      simp [peek,hnot,Token.starts]

/-! ## Printed tokens -/

def Token.text : Token → List Char
  | .sym c => if c = '+' then ['>','>'] else [c]
  | .word w => w

def render (L : List Token) : List Char := L.flatMap fun t => t.text++[' ']

def Token.Valid : Token → Prop
  | .sym c => c ∈ operators
  | .word w => w ≠ [] ∧ ∀ c ∈ w, wordChar c ∧ c ≠ NUL

theorem slice_subset (w : ℕ × ℕ) : ∀ c ∈ slice cs w, c ∈ cs := fun _ hc =>
  mem_of_mem_drop (mem_of_mem_take hc)

theorem tokens_valid (hn : NUL ∉ cs) (s : ℕ) : ∀ t ∈ tokens cs s, t.Valid := by
  have hall : ∀ L s, tokens cs s = L → ∀ t ∈ L, t.Valid := by
    intro L
    induction L with
    | nil => simp
    | cons t L ih =>
      intro s h
      obtain ⟨-,hL,hsym,hword⟩ := gettoken_of_cons hn h
      refine forall_mem_cons.mpr ⟨?_,ih _ hL⟩
      cases t with
      | sym c => exact (hsym c rfl).1
      | word w =>
        obtain ⟨-,hw,rfl⟩ := hword w rfl
        refine ⟨fun he => ?_,fun c hc => ⟨hw.inside c hc,fun he => hn ?_⟩⟩
        · have hlen := congrArg List.length he
          have hlt := hw.lt
          have hle := hw.le
          simp only [slice,length_take,length_drop,length_nil] at hlen hlt hle
          omega
        · exact he ▸ slice_subset _ c hc
  exact hall _ s rfl

/-- The same result for a string without its first `n` characters. -/
def Got.shift (n : ℕ) (g : Got) : Got := ⟨g.ret,n+g.q,n+g.eq,n+g.ps⟩

theorem charAt_add (n k : ℕ) : charAt cs (n+k) = charAt (cs.drop n) k := by
  simp [charAt]

theorem advance_add (p : Char → Bool) (n k : ℕ) : advance cs p (n+k) = n+advance (cs.drop n) p k := by
  simp [advance,Nat.add_assoc]

theorem skip_add (n k : ℕ) : skip cs (n+k) = n+skip (cs.drop n) k := advance_add _ n k

theorem gettoken_add (n k : ℕ) : gettoken cs (n+k) = (gettoken (cs.drop n) k).shift n := by
  simp only [gettoken,skip_add,charAt_add,Got.shift,Nat.add_assoc,advance_add]
  split_ifs <;> simp only [skip_add]

theorem slice_add (n : ℕ) (w : ℕ × ℕ) : slice cs (n+w.1,n+w.2) = slice (cs.drop n) w := by
  simp [slice,Nat.add_sub_add_left]

theorem tokensFrom_add (n m k : ℕ) : tokensFrom cs m (n+k) = tokensFrom (cs.drop n) m k := by
  induction m generalizing k with
  | zero => rfl
  | succ m ih =>
    simp only [tokensFrom,gettoken_add,Got.shift,ih,Got.token]
    rw [slice_add n ((gettoken (cs.drop n) k).q,(gettoken (cs.drop n) k).eq)]

theorem tokens_drop (n : ℕ) : tokens cs n = tokens (cs.drop n) 0 := by
  have h : tokensFrom cs (cs.length-n) (n+0) = tokensFrom (cs.drop n) (cs.length-n) 0 :=
    tokensFrom_add n (cs.length-n) 0
  simpa [tokens] using h

theorem tokens_length_le (s : ℕ) : (tokens cs s).length ≤ cs.length-s := by
  have hall : ∀ n s, (tokensFrom cs n s).length ≤ n := by
    intro n
    induction n with
    | zero => simp [tokensFrom]
    | succ n ih =>
      intro s
      simp only [tokensFrom]
      split_ifs
      · simp
      · simpa using ih _
  exact hall _ s

theorem nul_notMem_blank {l : List Char} (hn : NUL ∉ l) : NUL ∉ ' '::l :=
  not_mem_cons_of_ne_of_not_mem (by decide) hn

theorem tokens_blank {l : List Char} (hn : NUL ∉ l) : tokens (' '::l) 0 = tokens l 0 := by
  have hskip : skip (' '::l) 0 = skip (' '::l) 1 := by
    simp [skip,advance,whitespace]
    omega
  rw [← tokens_skip (nul_notMem_blank hn),hskip,tokens_skip (nul_notMem_blank hn),tokens_drop 1]
  rfl

theorem Token.Valid.nul_notMem {t : Token} (h : t.Valid) : NUL ∉ t.text := by
  cases t with
  | sym c =>
    have hall : ∀ c ∈ operators, NUL ∉ (Token.sym c).text := by decide
    exact hall c h
  | word => exact fun hm => (h.2 NUL hm).2 rfl

theorem nul_notMem_render {L : List Token} (hL : ∀ t ∈ L, t.Valid) : NUL ∉ render L := by
  intro hm
  obtain ⟨t,ht,hm⟩ := mem_flatMap.mp hm
  rcases List.mem_append.mp hm with hm | hm
  · exact (hL t ht).nul_notMem hm
  · revert hm
    decide

theorem gettoken_text {t : Token} (h : t.Valid) (l : List Char) : gettoken (t.text++ ' '::l) 0 =
      ⟨t.ret,0,t.text.length,skip (t.text++ ' '::l) t.text.length⟩ := by
  cases t with
  | sym =>
    simp only [Token.Valid,operators,mem_cons,not_mem_nil,or_false] at h
    rcases h with rfl | rfl | rfl | rfl | rfl | rfl | rfl | rfl <;> rfl
  | word w =>
    obtain ⟨hne,hw⟩ := h
    obtain ⟨c,w,rfl⟩ := exists_cons_of_ne_nil hne
    obtain ⟨hc,hc0⟩ := hw c (by simp)
    simp only [wordChar,Bool.decide_and,Bool.and_eq_true,decide_eq_true_eq] at hc
    have hskip : skip (c::w++ ' '::l) 0 = 0 := by simp [skip,advance,hc.1]
    have hend : advance (c::w++ ' '::l) wordChar 0 = (c::w).length := by
      have htake : (c::w++ ' '::l).takeWhile wordChar = c::w := by
        rw [takeWhile_append_of_pos fun d hd => (hw d hd).1]
        simp [wordChar,whitespace]
      rw [advance,drop_zero,htake,Nat.zero_add]
    have hsym := hc.2
    simp only [symbols,mem_cons,not_mem_nil,or_false,not_or] at hsym
    simp only [gettoken,Token.text,Token.ret,hskip,hend]
    simp [charAt,hc0,hsym]

theorem tokens_render {L : List Token} (hL : ∀ t ∈ L, t.Valid) : tokens (render L) 0 = L := by
  induction L with
  | nil => rfl
  | cons t L ih =>
    obtain ⟨ht,hL⟩ := forall_mem_cons.mp hL
    have hrender : render (t::L) = t.text++ ' '::render L := by simp [render]
    have hn := nul_notMem_render hL
    have hn' : NUL ∉ t.text++ ' '::render L := by
      simp only [List.mem_append,not_or]
      exact ⟨ht.nul_notMem,nul_notMem_blank hn⟩
    have hret : t.ret ≠ NUL := by
      cases t with
      | sym c =>
        have hall : ∀ c ∈ operators, c ≠ NUL := by decide
        exact hall c ht
      | word => exact (by decide : 'a' ≠ NUL)
    have htoken : Got.token (t.text++ ' '::render L) ⟨t.ret,0,t.text.length,
        skip (t.text++ ' '::render L) t.text.length⟩ = t := by
      cases t with
      | sym c =>
        have hall : ∀ c ∈ operators, c ≠ 'a' := by decide
        exact if_neg (hall c ht)
      | word => simp [Got.token,Token.ret,Token.text,slice]
    rw [hrender,tokens_eq hn',gettoken_text ht,if_neg hret,htoken,tokens_skip hn',tokens_drop,
      drop_left,tokens_blank hn,ih hL]

end
end Xv6.Shell
