import Mathlib.Computability.Language

/-!
# The matcher of grep

`match`, `matchhere` and `matchstar` of `grep.c` on two strings in memory. They take a bound on the
depth of their calls and the rounds of their loops; `none` is a call that has passed it.
-/
namespace Xv6.Grep
open List

def NUL : Char := '\x00'

section
variable (R T : ℕ → Char)

mutual

def matchhere : ℕ → ℕ → ℕ → Option Bool
  | 0,_,_ => none
  | fuel+1,re,text =>
    if R re = NUL then some true
    else if R (re+1) = '*' then matchstar fuel (R re) (re+2) text
    else if R re = '$' ∧ R (re+1) = NUL then some (T text = NUL)
    else if T text ≠ NUL ∧ (R re = '.' ∨ R re = T text) then matchhere fuel (re+1) (text+1)
    else some false

def matchstar : ℕ → Char → ℕ → ℕ → Option Bool
  | 0,_,_,_ => none
  | fuel+1,c,re,text => do
      if ← matchhere fuel re text then some true
      else if T text ≠ NUL ∧ (T text = c ∨ c = '.') then matchstar fuel c re (text+1)
      else some false

end

def matchLoop : ℕ → ℕ → ℕ → Option Bool
  | 0,_,_ => none
  | fuel+1,re,text => do
      if ← matchhere R T fuel re text then some true
      else if T text ≠ NUL then matchLoop fuel re (text+1)
      else some false

def matchText (fuel re text : ℕ) : Option Bool :=
  if R re = '^' then matchhere R T fuel (re+1) text else matchLoop R T fuel re text

end

/-! ## Strings in memory -/

/-- The characters of `s` stand at `p`, and none of them is zero. -/
def Spells (T : ℕ → Char) (p : ℕ) : List Char → Prop
  | [] => True
  | c::s => c ≠ NUL ∧ T p = c ∧ Spells T (p+1) s

def Str (T : ℕ → Char) (p : ℕ) (s : List Char) : Prop := Spells T p s ∧ T (p+s.length) = NUL

section
variable {T T' : ℕ → Char} {p : ℕ} {c : Char} {s s' : List Char}

theorem str_nil : Str T p [] ↔ T p = NUL := by simp [Str,Spells]

theorem str_cons : Str T p (c::s) ↔ c ≠ NUL ∧ T p = c ∧ Str T (p+1) s := by
  have hadd : p+(s.length+1) = p+1+s.length := by omega
  simp only [Str,Spells,length_cons,hadd,and_assoc]

theorem spells_append : Spells T p (s++s') ↔ Spells T p s ∧ Spells T (p+s.length) s' := by
  induction s generalizing p with
  | nil => simp [Spells]
  | cons c s ih =>
    have hadd : p+(s.length+1) = p+1+s.length := by omega
    simp only [cons_append,Spells,ih,length_cons,hadd,and_assoc]

theorem spells_of_getD (hs : NUL ∉ s) (h : ∀ i < s.length, T (p+i) = s.getD i NUL) : Spells T p s := by
  induction s generalizing p with
  | nil => trivial
  | cons c s ih =>
    rw [mem_cons,not_or] at hs
    simp only [length_cons] at h
    refine ⟨Ne.symm hs.1,h 0 (by omega),ih hs.2 fun i hi => ?_⟩
    have hnext := h (i+1) (by omega)
    rwa [getD_cons_succ,← Nat.add_assoc,Nat.add_right_comm] at hnext

theorem Spells.move {q : ℕ} (h : Spells T p s) (he : ∀ i < s.length, T' (q+i) = T (p+i)) : Spells T' q s := by
  induction s generalizing p q with
  | nil => trivial
  | cons c s ih =>
    simp only [length_cons] at he
    refine ⟨h.1,(he 0 (by omega)).trans h.2.1,ih h.2.2 fun i hi => ?_⟩
    have hnext := he (i+1) (by omega)
    rwa [Nat.add_right_comm,Nat.add_right_comm p]

theorem Spells.congr (h : Spells T p s) (he : ∀ i, p ≤ i → i < p+s.length → T' i = T i) :
    Spells T' p s :=
  h.move fun i hi => he (p+i) (Nat.le_add_right p i) (by omega)

end

/-! ## What the functions compute -/

/-- `matchstar` with what `matchhere` says of the rest of the pattern. -/
def starOf (here : List Char → Bool) (c : Char) : List Char → Bool
  | [] => here []
  | x::t => here (x::t) || ((x = c || c = '.') && starOf here c t)

def hereOf : List Char → List Char → Bool
  | [],_ => true
  | c:: '*'::r,t => starOf (hereOf r) c t
  | ['$'],t => t.isEmpty
  | _::_,[] => false
  | c::r,x::t => (c = '.' || c = x) && hereOf r t

def somewhere (here : List Char → Bool) : List Char → Bool
  | [] => here []
  | x::t => here (x::t) || somewhere here t

/-- Whether `match` accepts the text `t` for the pattern `r`. -/
def accepts (r t : List Char) : Bool :=
  match r with
  | '^'::r => hereOf r t
  | r => somewhere (hereOf r) t

theorem hereOf_star (c : Char) (r t : List Char) : hereOf (c:: '*'::r) t = starOf (hereOf r) c t := by
  rw [hereOf]

theorem hereOf_end (t : List Char) : hereOf ['$'] t = t.isEmpty := by
  rw [hereOf]

theorem hereOf_cons {c : Char} {r : List Char} (hstar : ∀ r', r ≠ '*'::r') (hend : ¬(c = '$' ∧ r = []))
    (t : List Char) : hereOf (c::r) t = match t with
      | [] => false
      | x::t => (c = '.' || c = x) && hereOf r t := by
  cases t with
  | nil | cons => rw [hereOf] <;> simp_all

section
variable {R T : ℕ → Char}

theorem matcher_eq (fuel : ℕ) :
    (∀ {re text : ℕ} {r t : List Char}, Str R re r → Str T text t → r.length+t.length < fuel →
      matchhere R T fuel re text = some (hereOf r t)) ∧
    ∀ {re text : ℕ} {r t : List Char} (c : Char), Str R re r → Str T text t → r.length+t.length+1 < fuel →
      matchstar R T fuel c re text = some (starOf (hereOf r) c t) := by
  induction fuel with
  | zero => exact ⟨fun _ _ h => absurd h (Nat.not_lt_zero _),fun _ _ _ h => absurd h (Nat.not_lt_zero _)⟩
  | succ fuel ih =>
    obtain ⟨ihhere,ihstar⟩ := ih
    refine ⟨fun {re text r t} hr ht hfuel => ?_,fun {re text r t} c hr ht hfuel => ?_⟩
    · unfold matchhere
      cases r with
      | nil =>
        rw [if_pos (str_nil.mp hr)]
        rfl
      | cons c r =>
        obtain ⟨hc,hRe,hrest⟩ := str_cons.mp hr
        have hnext : R (re+1) = r.headD NUL := by
          cases r with
          | nil => exact str_nil.mp hrest
          | cons => exact (str_cons.mp hrest).2.1
        simp only [length_cons] at hfuel
        rw [hRe,if_neg hc,hnext]
        by_cases hstar : ∃ r', r = '*'::r'
        · obtain ⟨r',rfl⟩ := hstar
          rw [headD_cons,if_pos rfl,hereOf_star]
          simp only [length_cons] at hfuel
          exact ihstar c (str_cons.mp hrest).2.2 ht (by omega)
        · have hne : r.headD NUL ≠ '*' := by
            cases r with
            | nil => decide
            | cons d r =>
              rintro rfl
              exact hstar ⟨r,rfl⟩
          rw [if_neg hne]
          by_cases hend : c = '$' ∧ r = []
          · obtain ⟨rfl,rfl⟩ := hend
            rw [if_pos ⟨rfl,rfl⟩,hereOf_end]
            cases t with
            | nil => simp [str_nil.mp ht]
            | cons => simp [(str_cons.mp ht).2.1,(str_cons.mp ht).1]
          · have hlast : ¬(c = '$' ∧ r.headD NUL = NUL) := by
              rintro ⟨rfl,hnul⟩
              refine hend ⟨rfl,?_⟩
              cases r with
              | nil => rfl
              | cons => exact absurd hnul (str_cons.mp hrest).1
            rw [if_neg hlast,hereOf_cons (fun r' h => hstar ⟨r',h⟩) hend]
            cases t with
            | nil => rw [str_nil.mp ht,if_neg (fun h => h.1 rfl)]
            | cons x =>
              obtain ⟨hx,hT,ht⟩ := str_cons.mp ht
              simp only [length_cons] at hfuel
              rw [hT]
              by_cases hm : c = '.' ∨ c = x
              · rw [if_pos ⟨hx,hm⟩,ihhere hrest ht (by omega)]
                simp [hm]
              · rw [if_neg fun h => hm h.2]
                simp [hm]
    · unfold matchstar
      rw [ihhere hr ht (by omega)]
      cases t with
      | nil =>
        rw [str_nil.mp ht]
        cases hh : hereOf r [] with
        | false | true => simp [starOf,hh]
      | cons x t =>
        obtain ⟨hx,hT,ht'⟩ := str_cons.mp ht
        simp only [length_cons] at hfuel
        rw [hT]
        cases hh : hereOf r (x::t) with
        | true => simp [starOf,hh]
        | false =>
          change (if x ≠ NUL ∧ (x = c ∨ c = '.') then matchstar R T fuel c re (text+1) else some false) = _
          by_cases hm : x = c ∨ c = '.'
          · rw [if_pos ⟨hx,hm⟩,ihstar c hr ht' (by omega)]
            simp [starOf,hh,hm]
          · rw [if_neg fun h => hm h.2]
            simp [starOf,hh,hm]

theorem matchLoop_eq {fuel re text : ℕ} {r t : List Char} (hr : Str R re r) (ht : Str T text t)
    (hfuel : r.length+t.length+1 < fuel) :
    matchLoop R T fuel re text = some (somewhere (hereOf r) t) := by
  induction t generalizing fuel text with
  | nil =>
    obtain ⟨fuel,rfl⟩ : ∃ k, fuel = k+1 := ⟨fuel-1,by omega⟩
    unfold matchLoop
    rw [(matcher_eq fuel).1 hr ht (by omega),str_nil.mp ht]
    cases hh : hereOf r [] with
    | false | true => simp [somewhere,hh]
  | cons x t ih =>
    obtain ⟨fuel,rfl⟩ : ∃ k, fuel = k+1 := ⟨fuel-1,by omega⟩
    obtain ⟨hx,hT,hrest⟩ := str_cons.mp ht
    simp only [length_cons] at hfuel
    unfold matchLoop
    rw [(matcher_eq fuel).1 hr ht (by simp only [length_cons]; omega),hT]
    cases hh : hereOf r (x::t) with
    | true => simp [somewhere,hh]
    | false =>
      change (if x ≠ NUL then matchLoop R T fuel re (text+1) else some false) = _
      rw [if_pos hx,ih hrest (by omega)]
      simp [somewhere,hh]

/-- Within a bound that the lengths give, `match` returns what `accepts` says. -/
theorem matchText_eq {fuel re text : ℕ} {r t : List Char} (hr : Str R re r) (ht : Str T text t)
    (hfuel : r.length+t.length+1 < fuel) : matchText R T fuel re text = some (accepts r t) := by
  unfold matchText
  cases r with
  | nil =>
    rw [if_neg (by rw [str_nil.mp hr]; decide)]
    exact matchLoop_eq hr ht hfuel
  | cons c =>
    obtain ⟨hc,hRe,hrest⟩ := str_cons.mp hr
    rw [hRe]
    by_cases hanchor : c = '^'
    · subst hanchor
      simp only [length_cons] at hfuel
      rw [if_pos rfl]
      exact (matcher_eq fuel).1 hrest ht (by omega)
    · rw [if_neg hanchor,matchLoop_eq hr ht hfuel]
      simp [accepts,hanchor]

end

/-! ## Patterns -/

inductive Atom
  | any
  | char (c : Char)

inductive Item
  | one (a : Atom)
  | star (a : Atom)

def Atom.Is : Atom → Char → Prop
  | .any,_ => True
  | .char c,x => c = x

def Atom.lang (a : Atom) : Language Char := {w | ∃ x, a.Is x ∧ w = [x]}

def Item.lang : Item → Language Char
  | .one a => a.lang
  | .star a => KStar.kstar a.lang

/-- A row of items, whether the text begins with it, and whether the text ends with it. -/
structure Pattern where
  anchored : Bool
  items : List Item
  final : Bool

def Pattern.lang (P : Pattern) : Language Char := (P.items.map Item.lang).prod

def Pattern.Found (P : Pattern) (t : List Char) : Prop :=
  ∃ before w after, t = before++w++after ∧ w ∈ P.lang ∧ (P.anchored → before = []) ∧ (P.final → after = [])

def readAtom (c : Char) : Atom := if c = '.' then .any else .char c

def readItems : List Char → List Item×Bool
  | [] => ([],false)
  | c:: '*'::r => (.star (readAtom c)::(readItems r).1,(readItems r).2)
  | ['$'] => ([],true)
  | c::r => (.one (readAtom c)::(readItems r).1,(readItems r).2)

def readPattern : List Char → Pattern
  | '^'::r => ⟨true,(readItems r).1,(readItems r).2⟩
  | r => ⟨false,(readItems r).1,(readItems r).2⟩

def Begins (is : List Item) (final : Bool) (t : List Char) : Prop :=
  ∃ w after, t = w++after ∧ w ∈ (is.map Item.lang).prod ∧ (final → after = [])

section
variable {a : Atom} {is : List Item} {final : Bool} {t : List Char}

theorem readAtom_is (c x : Char) : (readAtom c).Is x ↔ c = '.' ∨ c = x := by
  unfold readAtom
  split_ifs with h
  · exact iff_of_true trivial (.inl h)
  · simp [Atom.Is,h]

theorem Atom.mem_mul {w : List Char} {M : Language Char} :
    w ∈ a.lang*M ↔ ∃ x w', w = x::w' ∧ a.Is x ∧ w' ∈ M := by
  rw [Language.mem_mul]
  constructor
  · rintro ⟨_,⟨x,hx,rfl⟩,w',hw',rfl⟩
    exact ⟨x,w',rfl,hx,hw'⟩
  · rintro ⟨x,w',rfl,hx,hw'⟩
    exact ⟨[x],⟨x,hx,rfl⟩,w',hw',rfl⟩

theorem begins_nil : Begins [] final t ↔ (final → t = []) := by
  constructor
  · rintro ⟨w,after,rfl,hw,hfinal⟩ hf
    obtain rfl : w = [] := hw
    exact hfinal hf
  · exact fun h => ⟨[],t,rfl,rfl,h⟩

theorem begins_one : Begins (.one a::is) final t ↔ ∃ x t', t = x::t' ∧ a.Is x ∧ Begins is final t' := by
  simp only [Begins,map_cons,prod_cons,Item.lang,Atom.mem_mul]
  constructor
  · rintro ⟨_,after,rfl,⟨x,w,rfl,hx,hw⟩,hfinal⟩
    exact ⟨x,w++after,rfl,hx,w,after,rfl,hw,hfinal⟩
  · rintro ⟨x,_,rfl,hx,w,after,rfl,hw,hfinal⟩
    exact ⟨x::w,after,rfl,⟨x,w,rfl,hx,hw⟩,hfinal⟩

theorem begins_star : Begins (.star a::is) final t ↔
    Begins is final t ∨ ∃ x t', t = x::t' ∧ a.Is x ∧ Begins (.star a::is) final t' := by
  have hlang : ((Item.star a::is).map Item.lang).prod = (is.map Item.lang).prod+
      a.lang*((Item.star a::is).map Item.lang).prod := by
    simp only [map_cons,prod_cons,Item.lang]
    rw [← mul_assoc]
    nth_rewrite 1 [← Language.one_add_self_mul_kstar_eq_kstar]
    rw [add_mul,one_mul]
  constructor
  · rintro ⟨w,after,rfl,hw,hfinal⟩
    rw [hlang,Language.mem_add,Atom.mem_mul] at hw
    rcases hw with hw | ⟨x,w',rfl,hx,hw'⟩
    · exact .inl ⟨w,after,rfl,hw,hfinal⟩
    · exact .inr ⟨x,w'++after,rfl,hx,w',after,rfl,hw',hfinal⟩
  · rintro (⟨w,after,rfl,hw,hfinal⟩ | ⟨x,_,rfl,hx,w,after,rfl,hw,hfinal⟩)
    · refine ⟨w,after,rfl,?_,hfinal⟩
      rw [hlang,Language.mem_add]
      exact .inl hw
    · refine ⟨x::w,after,rfl,?_,hfinal⟩
      rw [hlang,Language.mem_add,Atom.mem_mul]
      exact .inr ⟨x,w,rfl,hx,hw⟩

theorem readItems_cons {c : Char} {r : List Char} (hstar : ∀ r', r ≠ '*'::r') (hend : ¬(c = '$' ∧ r = [])) :
    readItems (c::r) = (.one (readAtom c)::(readItems r).1,(readItems r).2) := by
  rw [readItems] <;> simp_all

theorem starOf_iff {here : List Char → Bool} (c : Char)
    (h : ∀ t, here t = true ↔ Begins is final t) (t : List Char) :
    starOf here c t = true ↔ Begins (.star (readAtom c)::is) final t := by
  induction t with
  | nil =>
    rw [starOf,h,begins_star]
    simp
  | cons x t ih =>
    rw [starOf,begins_star,Bool.or_eq_true,h,Bool.and_eq_true,ih]
    have hx : (readAtom c).Is x ↔ x = c ∨ c = '.' := by
      rw [readAtom_is,or_comm,eq_comm (a := c) (b := x)]
    simp [hx]

theorem hereOf_iff (r t : List Char) : hereOf r t = true ↔ Begins (readItems r).1 (readItems r).2 t := by
  induction r using readItems.induct generalizing t with
  | case1 =>
    rw [readItems,begins_nil]
    simp [hereOf]
  | case2 c r ih =>
    rw [hereOf_star,readItems]
    exact starOf_iff c ih t
  | case3 =>
    rw [hereOf_end,readItems,begins_nil]
    simp
  | case4 c r hstar hend ih =>
    have hstar' : ∀ r', r ≠ '*'::r' := fun r' h => hstar r' h
    have hend' : ¬(c = '$' ∧ r = []) := fun h => hend h.1 h.2
    rw [hereOf_cons hstar' hend',readItems_cons hstar' hend',begins_one]
    cases t with
    | nil => simp
    | cons => simp [ih,readAtom_is]

theorem somewhere_iff {here : List Char → Bool} (h : ∀ t, here t = true ↔ Begins is final t) (t : List Char) :
    somewhere here t = true ↔ ∃ before rest, t = before++rest ∧ Begins is final rest := by
  induction t with
  | nil =>
    rw [somewhere,h]
    simp
  | cons x t ih =>
    rw [somewhere,Bool.or_eq_true,h,ih]
    constructor
    · rintro (hb | ⟨before,rest,rfl,hb⟩)
      · exact ⟨[],x::t,rfl,hb⟩
      · exact ⟨x::before,rest,rfl,hb⟩
    · rintro ⟨before,rest,he,hb⟩
      cases before with
      | nil =>
        obtain rfl : x::t = rest := he
        exact .inl hb
      | cons y before =>
        obtain ⟨rfl,rfl⟩ := List.cons.inj he
        exact .inr ⟨before,rest,rfl,hb⟩

theorem found_anchored : Pattern.Found ⟨true,is,final⟩ t ↔ Begins is final t := by
  constructor
  · rintro ⟨before,w,after,rfl,hw,hanchor,hfinal⟩
    obtain rfl := hanchor rfl
    exact ⟨w,after,rfl,hw,hfinal⟩
  · rintro ⟨w,after,rfl,hw,hfinal⟩
    exact ⟨[],w,after,rfl,hw,fun _ => rfl,hfinal⟩

theorem found_anywhere : Pattern.Found ⟨false,is,final⟩ t ↔
    ∃ before rest, t = before++rest ∧ Begins is final rest := by
  constructor
  · rintro ⟨before,w,after,rfl,hw,-,hfinal⟩
    exact ⟨before,w++after,append_assoc ..,w,after,rfl,hw,hfinal⟩
  · rintro ⟨before,_,rfl,w,after,rfl,hw,hfinal⟩
    exact ⟨before,w,after,(append_assoc ..).symm,hw,nofun,hfinal⟩

theorem accepts_iff (r t : List Char) : accepts r t = true ↔ (readPattern r).Found t := by
  unfold accepts readPattern
  split
  · rw [found_anchored]
    exact hereOf_iff _ t
  · rw [found_anywhere]
    exact somewhere_iff (hereOf_iff _) t

end

/-- `match` returns, and it finds the pattern exactly if the text has it. -/
theorem match_exact {R T : ℕ → Char} {re text : ℕ} {r t : List Char} (hr : Str R re r) (ht : Str T text t) :
    ∃ b, (∀ fuel, r.length+t.length+1 < fuel → matchText R T fuel re text = some b) ∧
      (b = true ↔ (readPattern r).Found t) :=
  ⟨accepts r t,fun _ hfuel => matchText_eq hr ht hfuel,accepts_iff r t⟩

def textAt (s : List Char) (p : ℕ) : Char := s.getD p NUL

theorem textAt_str {s : List Char} (h : NUL ∉ s) : Str (textAt s) 0 s := by
  refine ⟨spells_of_getD h fun i _ => by rw [Nat.zero_add,textAt],?_⟩
  simp [textAt]

/-- `^a*.$` is found in a text of three characters. -/
theorem match_exact_aab : ∃ b, (∀ fuel, 5+3+1 < fuel →
      matchText (textAt ['^','a','*','.','$']) (textAt ['a','a','b']) fuel 0 0 = some b) ∧
    (b = true ↔ (readPattern ['^','a','*','.','$']).Found ['a','a','b']) :=
  match_exact (r := ['^','a','*','.','$']) (t := ['a','a','b']) (textAt_str (by decide))
    (textAt_str (by decide))

end Xv6.Grep
