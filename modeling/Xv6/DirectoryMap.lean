import Xv6.Directory

/-!
# Directories as finite maps

The life of one directory: lookups, new entries and removals, each under its lock, and between them
whatever other calls do to the rest of the disk. The entries follow a map from truncated names to
inode numbers, and every answer is the one the map gives.
-/
namespace Xv6.FileBlocks
open List
open Function (update update_self)
open Machine (bind_ok)

/-- What happens to a directory, with the answers of the functions. -/
inductive DirEvent
  | lookup (name : List ℕ) (answer : Option ℕ)
  | link (name : List ℕ) (inum : ℕ) (success : Bool)
  | unlink (name : List ℕ)
  | other

/-- The calls on directory `i`, and changes to the disk that leave the bytes of the
directory alone. `sys_unlink` clears the entry its lookup found. -/
inductive DirStep (sb : Superblock) (i : ℕ) :
    (ℕ → Dinode)×Store → DirEvent → (ℕ → Dinode)×Store → Prop
  | lookup {node st name r di' st'} :
      dirlookup sb st (node i) name = .ok (r,di',st') →
      DirStep sb i (node,st) (.lookup name (r.map fun p => p.2)) (update node i di',st')
  | link {node st name inum r di' st'} : inum ≠ 0 → inum < 2^16 →
      dirlink sb st i (node i) name inum = .ok (r,di',st') →
      DirStep sb i (node,st) (.link name inum r.isNone) (update node i di',st')
  | unlink {node st name off inum di st₁ di' st'} : namecmp name dot ≠ 0 → namecmp name dotdot ≠ 0 →
      dirlookup sb st (node i) name = .ok (some (off,inum),di,st₁) →
      eraseEntry sb st₁ i di off = .ok (di',st') →
      DirStep sb i (node,st) (.unlink name) (update node i di',st')
  | other {node st node' st'} : Sound sb node' st' → node' i = node i →
      (∀ o < (node i).size, byteAt st'.data (node i) o = byteAt st.data (node i) o) →
      DirStep sb i (node,st) .other (node',st')

/-- The states of a directory with the events that led to them. -/
inductive DirRun (sb : Superblock) (i : ℕ) (s₀ : (ℕ → Dinode)×Store) :
    List DirEvent → (ℕ → Dinode)×Store → Prop
  | start : DirRun sb i s₀ [] s₀
  | step {es e s s'} : DirRun sb i s₀ es s → DirStep sb i s e s' → DirRun sb i s₀ (es++[e]) s'

def DirEvent.Valid : DirEvent → Prop
  | .lookup name _ => 0 ∉ name
  | .link name _ _ => 0 ∉ name
  | .unlink name => 0 ∉ name
  | .other => True

abbrev NameMap := List ℕ → Option ℕ

def DirEvent.apply (m : NameMap) : DirEvent → NameMap
  | .link name inum true => update m (name.take DIRSIZ) (some inum)
  | .unlink name => update m (name.take DIRSIZ) none
  | _ => m

def DirEvent.Agrees (m : NameMap) : DirEvent → Prop
  | .lookup name answer => answer = m (name.take DIRSIZ)
  | .link name _ success => success = (m (name.take DIRSIZ)).isNone
  | .unlink name => (m (name.take DIRSIZ)).isSome
  | .other => True

def after (m : NameMap) (es : List DirEvent) : NameMap := es.foldl DirEvent.apply m

def AllAgree (m : NameMap) : List DirEvent → Prop
  | [] => True
  | e::es => e.Agrees m ∧ AllAgree (e.apply m) es

theorem after_append (m : NameMap) (es : List DirEvent) (e : DirEvent) :
    after m (es++[e]) = e.apply (after m es) := by simp [after]

theorem allAgree_append {m : NameMap} {es : List DirEvent} {e : DirEvent} (h : AllAgree m es)
    (he : e.Agrees (after m es)) : AllAgree m (es++[e]) := by
  induction es generalizing m with
  | nil => exact ⟨he,trivial⟩
  | cons d es ih => exact ⟨h.1,ih h.2 he⟩

variable {sb : Superblock} {i : ℕ}

structure DirSound (sb : Superblock) (i : ℕ) (s : (ℕ → Dinode)×Store) : Prop where
  sound : Sound sb s.1 s.2
  alloc : Alloc sb s.1 i
  dir : (s.1 i).type = .dir
  size : DESIZE ∣ (s.1 i).size
  wf : DirWf (entries s.2.data (s.1 i))

/-- The lookups in directory `i` are those of the map. -/
def Represents (i : ℕ) (s : (ℕ → Dinode)×Store) (m : NameMap) : Prop :=
  ∀ name, 0 ∉ name → (find (entries s.2.data (s.1 i)) name).map (fun p => p.2) = m (name.take DIRSIZ)

theorem Written.dirSound {node : ℕ → Dinode} {st st' : Store} {k : ℕ} {de : Dirent} {di' : Dinode}
    (h : DirSound sb i (node,st)) (w : Written sb node st i (DESIZE*k) de.bytes di' st')
    (hk : DESIZE*k ≤ (node i).size) (hn : de.inum < 2^16) (hlen : de.name.length = DIRSIZ)
    (hwf : DirWf (setEntry (entries st.data (node i)) k de)) :
    DirSound sb i (update node i di',st') ∧
      entries st'.data di' = setEntry (entries st.data (node i)) k de := by
  obtain ⟨he,hd⟩ := w.entries_eq h.size hk hn hlen
  have hty : di'.type = (node i).type := (congrArg Dinode.type w.fields).trans rfl
  refine ⟨⟨w.sound,(alloc_update hty i).mpr h.alloc,?_,?_,?_⟩,he⟩
  · simp only [update_self]
    exact hty.trans h.dir
  · simpa only [update_self] using hd
  · simp only [update_self]
    rw [he]
    exact hwf

theorem entries_congr {data data' : ℕ → ℕ → ℕ} {di : Dinode}
    (h : ∀ o < di.size, byteAt data' di o = byteAt data di o) : entries data' di = entries data di := by
  apply map_congr_left
  intro k hk
  have hk := mem_range.mp hk
  rw [direntAt,direntAt]
  congr 1
  apply map_congr_left
  intro j hj
  have hj := mem_range.mp hj
  apply h
  have := Nat.div_mul_le_self di.size DESIZE
  simp only [DESIZE] at *
  omega

theorem DirStep.keeps {s s' : (ℕ → Dinode)×Store} {e : DirEvent} {m : NameMap} (hs : DirStep sb i s e s')
    (hv : e.Valid) (h : DirSound sb i s) (hm : Represents i s m) :
    DirSound sb i s' ∧ Represents i s' (e.apply m) ∧ e.Agrees m := by
  cases hs with
  | @lookup node st name r di' st' hr =>
    rw [dirlookup_ok h.sound h.alloc h.dir h.size] at hr
    cases hr
    rw [Function.update_eq_self]
    refine ⟨h,hm,?_⟩
    rw [DirEvent.Agrees,← hm name hv,Option.map_map]
    rfl
  | @link node st name inum r di' st' hn hlt hr =>
    have hkey := hm name hv
    rcases dirlink_ok h.sound h.alloc h.dir h.size hr with ⟨k,n,hf,rfl,rfl,rfl⟩ | ⟨hf,rfl,w⟩
    · rw [Function.update_eq_self]
      dsimp only at hkey
      rw [hf] at hkey
      refine ⟨h,hm,?_⟩
      simp only [DirEvent.Agrees,← hkey,Option.map_some,Option.isNone_some]
    · dsimp only at hkey
      rw [hf] at hkey
      obtain ⟨h',he⟩ := w.dirSound h (freeSlot_size h.size) hlt (strncpy_length _ _) (h.wf.link hf)
      refine ⟨h',?_,by simp only [DirEvent.Agrees,← hkey,Option.map_none,Option.isNone_none]⟩
      intro name' hv'
      simp only [update_self,he,DirEvent.apply,Option.isNone_none]
      rw [h.wf.find_link hf hn,Function.update_apply]
      by_cases hname : name'.take DIRSIZ = name.take DIRSIZ
      · rw [if_pos ((strncpy_eq_iff hv' hv).mpr hname),if_pos hname]
        rfl
      · rw [if_neg fun hc => hname ((strncpy_eq_iff hv' hv).mp hc),if_neg hname]
        exact hm name' hv'
  | @unlink node st name off inum di st₁ di' st' hdot hdots hl hr =>
    have hkey := hm name hv
    rw [dirlookup_ok h.sound h.alloc h.dir h.size] at hl
    cases hf : find (entries st.data (node i)) name with
    | none =>
      rw [hf] at hl
      cases hl
    | some p =>
      obtain ⟨k,n⟩ := p
      rw [hf] at hl
      cases hl
      have h2 := h.wf.two_le_of_find hf hdot hdots
      have hlt : k < (entries st.data (node i)).length :=
        (List.getElem?_eq_some_iff.mp (h.wf.find_eq_some.mp hf).1).1
      obtain ⟨hoff,w⟩ := eraseEntry_ok h.sound h.alloc hr
      obtain ⟨h',he⟩ := w.dirSound h hoff (by decide) (by decide) (h.wf.erase h2 hlt)
      dsimp only at hkey
      rw [hf] at hkey
      refine ⟨h',?_,by simp [DirEvent.Agrees,← hkey]⟩
      intro name' hv'
      simp only [update_self,he,DirEvent.apply]
      rw [h.wf.find_erase hf h2,Function.update_apply]
      by_cases hname : name'.take DIRSIZ = name.take DIRSIZ
      · rw [if_pos ((strncpy_eq_iff hv' hv).mpr hname),if_pos hname]
        rfl
      · rw [if_neg fun hc => hname ((strncpy_eq_iff hv' hv).mp hc),if_neg hname]
        exact hm name' hv'
  | @other node st node' st' hsound hnode hbytes =>
    have he : entries st'.data (node' i) = entries st.data (node i) := by
      rw [hnode]
      exact entries_congr hbytes
    refine ⟨⟨hsound,?_,?_,?_,?_⟩,?_,trivial⟩
    · have := h.alloc
      simpa only [Alloc,hnode] using this
    · simpa only [hnode] using h.dir
    · simpa only [hnode] using h.size
    · simpa only [he] using h.wf
    · intro name hv'
      simp only [he]
      exact hm name hv'

theorem DirRun.keeps {s₀ s : (ℕ → Dinode)×Store} {es : List DirEvent} {m : NameMap}
    (hr : DirRun sb i s₀ es s) (hv : ∀ e ∈ es, e.Valid) (h : DirSound sb i s₀) (hm : Represents i s₀ m) :
    DirSound sb i s ∧ Represents i s (after m es) ∧ AllAgree m es := by
  induction hr with
  | start => exact ⟨h,hm,trivial⟩
  | @step es e s s' _ hstep ih =>
    obtain ⟨h1,h2,h3⟩ := ih fun e he => hv e (by simp [he])
    obtain ⟨k1,k2,k3⟩ := hstep.keeps (hv e (by simp)) h1 h2
    exact ⟨k1,by rwa [after_append],allAgree_append h3 k3⟩

def bareDir : (ℕ → Dinode)×Store :=
  (fun i => if i = 1 then ⟨.dir,0,0,1,32,fun k => if k = 0 then 2 else 0⟩ else .zero,
    {outstanding := 1
     inodes := fun _ _ => .zero
     bits := fun _ b => b < 3
     data := fun b j => if b = 2 then
       (Dirent.bytes ⟨1,strncpy DIRSIZ dot⟩++Dirent.bytes ⟨1,strncpy DIRSIZ dotdot⟩).getD j 0 else 0})

def bareSb : Superblock := ⟨4,2,2,10,20⟩

theorem bareDir_slot {i k : ℕ} (hi : Alloc bareSb bareDir.1 i) :
    i = 1 ∧ slot bareDir.2.data (bareDir.1 i) k = if k = 0 then 2 else 0 := by
  have hi1 : i = 1 := by
    by_contra hne
    exact hi.2 (by simp [bareDir,hne,Dinode.zero])
  subst hi1
  refine ⟨rfl,?_⟩
  by_cases hk : k = 0
  · subst hk
    rfl
  · have h12 : (bareDir.1 1).addrs NDIRECT = 0 := by decide
    rw [if_neg hk]
    unfold slot
    rw [h12]
    split_ifs with h
    · simp [bareDir,hk]
    · rfl
    · rfl
    · rfl

theorem bareDir_sound : DirSound bareSb 1 bareDir := by
  have hal : Alloc bareSb bareDir.1 1 := ⟨by decide,by decide⟩
  have hused : ∀ b, bareDir.2.used bareSb b = decide (b%BPB < 3) := fun b => rfl
  refine ⟨⟨⟨⟨?_,?_,?_⟩,?_,by decide⟩,?_⟩,hal,rfl,⟨2,rfl⟩,?_⟩
  · rintro b ⟨i,k⟩ ⟨hi,-,he,hb⟩
    obtain ⟨-,hs⟩ := bareDir_slot (k := k) hi
    rw [hs] at he
    split_ifs at he
    · subst he
      exact ⟨by decide,by decide⟩
    · exact absurd he.symm hb
  · rintro b ⟨i,k⟩ ⟨j,l⟩ ⟨hi,-,he,hb⟩ ⟨hj,-,he',-⟩
    obtain ⟨rfl,hs⟩ := bareDir_slot (k := k) hi
    obtain ⟨rfl,hs'⟩ := bareDir_slot (k := l) hj
    rw [hs] at he
    rw [hs'] at he'
    split_ifs at he he' with h1 h2 h2 <;> simp_all
  · intro b hb
    have hb : 2 ≤ b ∧ b < 4 := hb
    rw [hused]
    have hb' : b = 2 ∨ b = 3 := by omega
    rcases hb' with rfl | rfl
    · exact iff_of_true (by decide) ⟨(1,0),hal,by decide,by decide,by decide⟩
    · refine iff_of_false (by decide) ?_
      rintro ⟨⟨i,k⟩,hi,-,he,-⟩
      obtain ⟨-,hs⟩ := bareDir_slot (k := k) hi
      rw [hs] at he
      split_ifs at he
      omega
  · intro b hb
    have hb : b < 2 := hb
    rw [hused,Nat.mod_eq_of_lt (hb.trans (by decide)),decide_eq_true_eq]
    omega
  · intro j hj
    obtain ⟨rfl,-⟩ := bareDir_slot (k := 0) hj
    have hblocks : blocks (bareDir.1 1).size = 1 := by decide
    rw [hblocks]
    refine ⟨fun k _ => ?_,by decide,by decide⟩
    rw [(bareDir_slot hj).2]
    split_ifs with hk
    · simp [hk]
    · simp only [ne_eq,not_true,false_iff]
      omega
  · have hes : entries bareDir.2.data (bareDir.1 1) =
        [⟨1,strncpy DIRSIZ dot⟩,⟨1,strncpy DIRSIZ dotdot⟩] := by decide
    rw [hes]
    exact .new (by decide) (by decide)

end Xv6.FileBlocks
