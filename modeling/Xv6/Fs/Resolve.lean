/-
# What a path names

`skipelem` is an iterator over the components of a path, `namex` a walk over what it returns.  The
modes of `namex` agree: to look up the last element in what `nameiparent` returns is the same as
`namei`.

* `Split`: the names are the components between the slashes, each cut to DIRSIZ bytes, and the buffer
  `name` holds them as `namecmp` reads them.
* `namei_eq_walk`: `namei` is a walk over the names, as a program.
* `namei_eq_lookup`: `namei` and `nameiparent` do the same, up to the last element.
* `wp_namei_resolve`: in a consistent state the walk finds what the directories say.
-/
import Mathlib.Data.List.DropRight
import Mathlib.Data.List.TakeWhile
import Xv6.Fs.Image
import Xv6.Fs.Walk

namespace Xv6.Fs

open Function (update_eq_self update_idem update_of_ne update_self)
open Prog (bind_eq_bind pure_eq_ret wp_seq_bind wp_seq_ite wp_seq_lift wp_seq_lock_free wp_seq_ret)

/-! ## 1. The names of a path -/

/-- The components of a path: what is between the slashes, if it is not empty. -/
def components (path : List UInt8) : List (List UInt8) := (path.splitOn slash).filter (· ≠ [])

/-- The names that `skipelem` returns, one after another. -/
def elements : Nat → List UInt8 → List (List UInt8)
  | 0, _ => []
  | n + 1, path =>
    match skipelem path with
    | none => []
    | some (name, rest) => name :: elements n rest

section

variable {path name rest buf : List UInt8}

theorem components_slash : components (slash :: path) = components path := by
  rw [components, List.splitOn, List.splitOnP_cons_eq_if_modifyHead, if_pos (beq_self_eq_true _),
    List.filter_cons_of_neg (by simp)]
  rfl

theorem components_dropWhile : components (path.dropWhile (· = slash)) = components path := by
  induction path with
  | nil => rfl
  | cons c path ih =>
    by_cases hc : c = slash
    · rw [List.dropWhile_cons_of_pos (by simpa using hc), ih, hc, components_slash]
    · rw [List.dropWhile_cons_of_neg (by simpa using hc)]

theorem components_single (hname : slash ∉ name) (hne : name ≠ []) : components name = [name] := by
  have hnot : ∀ c ∈ name, (c == slash) = false := fun c hc =>
    beq_eq_false_iff_ne.mpr fun e => hname (e ▸ hc)
  rw [components, List.splitOn, List.splitOnP_eq_singleton hnot,
    List.filter_cons_of_pos (by simpa using hne), List.filter_nil]

theorem components_append (hname : slash ∉ name) (hne : name ≠ []) :
    components (name ++ slash :: rest) = name :: components rest := by
  have hnot : ∀ c ∈ name, (c == slash) = false := fun c hc =>
    beq_eq_false_iff_ne.mpr fun e => hname (e ▸ hc)
  rw [components, List.splitOn, List.splitOnP_append_cons_of_forall_mem hnot _ (beq_self_eq_true _),
    List.filter_cons_of_pos (by simpa using hne)]
  rfl

theorem not_mem_takeWhile : slash ∉ path.takeWhile (· ≠ slash) := fun h => by
  have hne := List.mem_takeWhile_imp h
  simp at hne

theorem skipelem_none (h : skipelem path = none) : components path = [] := by
  rw [skipelem] at h
  split at h
  next hnil =>
    rw [← components_dropWhile, hnil]
    rfl
  next => cases h

/-- `dropWhile` stops in front of something else. -/
theorem head_of_dropWhile {test : UInt8 → Bool} {c : UInt8} (h : path.dropWhile test = c :: rest) :
    test c = false := by
  have hne : path.dropWhile test ≠ [] := by
    rw [h]
    exact List.cons_ne_nil _ _
  have hhead := List.head_dropWhile_not test hne
  simpa only [h, List.head_cons] using hhead

/-- The first component, behind the leading slashes. -/
theorem components_cons {c : UInt8} {cs : List UInt8} (h : path.dropWhile (· = slash) = c :: cs) :
    components path = (c :: cs).takeWhile (· ≠ slash) ::
      components (((c :: cs).dropWhile (· ≠ slash)).dropWhile (· = slash)) := by
  have hc : c ≠ slash := by simpa using head_of_dropWhile h
  have hne : (c :: cs).takeWhile (· ≠ slash) ≠ [] := by
    rw [List.takeWhile_cons_of_pos (by simpa using hc)]
    exact List.cons_ne_nil _ _
  have hpath : components path = components
      ((c :: cs).takeWhile (· ≠ slash) ++ (c :: cs).dropWhile (· ≠ slash)) := by
    rw [List.takeWhile_append_dropWhile, ← h, components_dropWhile]
  rw [hpath, components_dropWhile]
  cases hafter : (c :: cs).dropWhile (· ≠ slash) with
  | nil =>
    rw [List.append_nil, components_single not_mem_takeWhile hne]
    rfl
  | cons d after =>
    have hd : d = slash := by simpa using head_of_dropWhile hafter
    rw [hd, components_append not_mem_takeWhile hne, components_slash]

/-- **`skipelem`** takes off the first component, and the slashes behind it. -/
theorem skipelem_some (h : skipelem path = some (name, rest)) :
    ∃ c, components path = c :: components rest ∧ name = c.take DIRSIZ ∧
      rest.dropWhile (· = slash) = rest := by
  rw [skipelem] at h
  split at h
  next => cases h
  next c cs hcons =>
    obtain ⟨rfl, rfl⟩ := Prod.mk.inj (Option.some.inj h)
    exact ⟨_, components_cons hcons, rfl, List.dropWhile_idempotent _ _⟩

/-- The names are the components, cut to DIRSIZ bytes. -/
theorem elements_eq {n : Nat} (hn : path.length < n) :
    elements n path = (components path).map (List.take DIRSIZ) := by
  induction n generalizing path with
  | zero => exact absurd hn (Nat.not_lt_zero _)
  | succ n ih =>
    rw [elements]
    cases hskip : skipelem path with
    | none =>
      rw [skipelem_none hskip]
      rfl
    | some elem =>
      obtain ⟨name, rest⟩ := elem
      obtain ⟨c, hcomp, rfl, -⟩ := skipelem_some hskip
      have hlen := skipelem_length hskip
      have htail : elements n rest = (components rest).map (List.take DIRSIZ) := ih (by omega)
      rw [hcomp, List.map_cons, ← htail]

end

/-! ## 2. The buffer -/

/-- `skipelem`, with the buffer `name` that it writes to: DIRSIZ bytes, or the element and a NUL. -/
def skipelemInto (path name : List UInt8) : Option (List UInt8 × List UInt8) :=
  match path.dropWhile (· = slash) with
  | [] => none
  | c :: cs =>
    let s := (c :: cs).takeWhile (· ≠ slash)
    let name :=
      if DIRSIZ ≤ s.length then s.take DIRSIZ ++ name.drop DIRSIZ
      else s ++ 0 :: name.drop (s.length + 1)
    some (name, ((c :: cs).dropWhile (· ≠ slash)).dropWhile (· = slash))

/-- The buffers that a loop over the path sees. -/
def buffers : Nat → List UInt8 → List UInt8 → List (List UInt8)
  | 0, _, _ => []
  | n + 1, path, buf =>
    match skipelemInto path buf with
    | none => []
    | some (buf, rest) => buf :: buffers n rest buf

/-- The buffer holds a component: its first DIRSIZ bytes, or all of it and a NUL. -/
def Holds (c buf : List UInt8) : Prop :=
  buf.length = DIRSIZ ∧ if DIRSIZ ≤ c.length then buf = c.take DIRSIZ else ∃ t, buf = c ++ 0 :: t

section

variable {path name rest buf c : List UInt8}

theorem skipelemInto_none (h : skipelemInto path buf = none) : skipelem path = none := by
  rw [skipelemInto] at h
  split at h
  next hnil => rw [skipelem, hnil]
  next => cases h

theorem skipelemInto_some {buf' : List UInt8} (hbuf : buf.length = DIRSIZ)
    (h : skipelemInto path buf = some (buf', rest)) :
    ∃ c, components path = c :: components rest ∧ Holds c buf' ∧
      skipelem path = some (c.take DIRSIZ, rest) ∧ c.Sublist path ∧ rest.Sublist path := by
  rw [skipelemInto] at h
  split at h
  next => cases h
  next c cs hcons =>
    obtain ⟨hname, rfl⟩ := Prod.mk.inj (Option.some.inj h)
    have hsub : (c :: cs).Sublist path := hcons ▸ List.dropWhile_sublist _
    refine ⟨_, components_cons hcons, ?_, by rw [skipelem, hcons],
      (List.takeWhile_sublist _).trans hsub,
      ((List.dropWhile_sublist _).trans (List.dropWhile_sublist _)).trans hsub⟩
    rw [Holds, ← hname]
    split
    next hle =>
      rw [List.drop_eq_nil_of_le hbuf.le, List.append_nil]
      exact ⟨List.length_take_of_le hle, rfl⟩
    next hlt =>
      refine ⟨?_, _, rfl⟩
      rw [List.length_append, List.length_cons, List.length_drop, hbuf]
      omega

theorem takeWhile_noNul (h : 0 ∉ c) : c.takeWhile (· ≠ 0) = c :=
  List.takeWhile_eq_self_iff.mpr fun _ hx => decide_eq_true fun e => h (e ▸ hx)

/-- What `namecmp` reads in the buffer. -/
theorem Holds.cstring (h : Holds c buf) (h0 : 0 ∉ c) : cstring DIRSIZ buf = c.take DIRSIZ := by
  obtain ⟨hlen, hholds⟩ := h
  rw [Fs.cstring, List.take_of_length_le hlen.le]
  split at hholds
  next hle => rw [hholds, takeWhile_noNul fun hmem => h0 (List.mem_of_mem_take hmem)]
  next hlt =>
    obtain ⟨t, rfl⟩ := hholds
    have hpos : ∀ x ∈ c, decide (x ≠ 0) = true := fun x hx => decide_eq_true fun e => h0 (e ▸ hx)
    rw [List.takeWhile_append_of_pos hpos, List.takeWhile_cons_of_neg (by simp), List.append_nil,
      List.take_of_length_le (by omega)]

theorem buffers_holds {n : Nat} (hbuf : buf.length = DIRSIZ) (hn : path.length < n) :
    List.Forall₂ Holds (components path) (buffers n path buf) := by
  induction n generalizing path buf with
  | zero => exact absurd hn (Nat.not_lt_zero _)
  | succ n ih =>
    rw [buffers]
    cases hskip : skipelemInto path buf with
    | none =>
      rw [skipelem_none (skipelemInto_none hskip)]
      exact .nil
    | some elem =>
      obtain ⟨buf', rest⟩ := elem
      obtain ⟨c, hcomp, hholds, hskip', -⟩ := skipelemInto_some hbuf hskip
      have hlen := skipelem_length hskip'
      rw [hcomp]
      exact .cons hholds (ih hholds.1 (by omega))

/-- In the buffers `namecmp` reads the names. -/
theorem buffers_cstring {n : Nat} (hbuf : buf.length = DIRSIZ) (h0 : 0 ∉ path) :
    (buffers n path buf).map (cstring DIRSIZ) = elements n path := by
  induction n generalizing path buf with
  | zero => rfl
  | succ n ih =>
    rw [buffers, elements]
    cases hskip : skipelemInto path buf with
    | none =>
      rw [skipelemInto_none hskip]
      rfl
    | some elem =>
      obtain ⟨buf', rest⟩ := elem
      obtain ⟨c, -, hholds, hskip', hc, hrest⟩ := skipelemInto_some hbuf hskip
      rw [hskip']
      simp only [List.map_cons, hholds.cstring fun h => h0 (hc.subset h),
        ih hholds.1 fun h => h0 (hrest.subset h)]

/-- `dirlookup` reads the name as far as `namecmp` does. -/
theorem dirlookup_cstring (dp : Nat) : dirlookup dp buf = dirlookup dp (cstring DIRSIZ buf) := by
  have hread : cstring DIRSIZ (cstring DIRSIZ buf) = cstring DIRSIZ buf := by
    have hlen : (cstring DIRSIZ buf).length ≤ DIRSIZ :=
      (List.takeWhile_sublist _).length_le.trans (List.length_take_le ..)
    rw [cstring, List.take_of_length_le hlen, cstring, List.takeWhile_idem]
  have hnamed : Dirent.named buf = Dirent.named (cstring DIRSIZ buf) := by
    funext de
    have hcmp : namecmp buf de.name = 0 ↔ namecmp (cstring DIRSIZ buf) de.name = 0 := by
      rw [namecmp, namecmp, strncmp_eq_zero, strncmp_eq_zero, hread]
    rw [Dirent.named, Dirent.named, Bool.eq_iff_iff]
    simp only [Bool.and_eq_true, beq_iff_eq, hcmp]
  rw [dirlookup, hnamed]
  rfl

end

/-! ## 3. The walk -/

/-- Directory by directory over the names. -/
def walk (p : Pid) : List (List UInt8) → Nat → KProg (Option Nat)
  | [], ip => return some ip
  | name :: names, ip => do
    ilock ip
    if (← atomic (itype ip)) ≠ T_DIR then
      iunlockput p ip
      return none
    else
      match ← atomic (dirlookup ip name) with
      | none =>
        iunlockput p ip
        return none
      | some (next, _) =>
        iunlockput p ip
        walk p names next

theorem namexLoop_eq_walk {p : Pid} {n ip : Nat} {path : List UInt8} (hn : path.length < n) :
    (namexLoop p false n ip path).bind (fun r => .ret (r.map Prod.fst)) =
      walk p (elements n path) ip := by
  induction n generalizing ip path with
  | zero => exact absurd hn (Nat.not_lt_zero _)
  | succ n ih =>
    rw [namexLoop, elements]
    cases hskip : skipelem path with
    | none => rfl
    | some elem =>
      obtain ⟨name, rest⟩ := elem
      have hlen := skipelem_length hskip
      simp only [Bool.false_eq_true, false_and, if_false, walk, bind_eq_bind, Prog.bind_assoc]
      congr 1
      funext _
      congr 1
      funext t
      split
      · simp only [Prog.bind_assoc]
        rfl
      · simp only [Prog.bind_assoc]
        congr 1
        funext o
        cases o with
        | none => 
          simp only [Prog.bind_assoc]
          rfl
        | some x =>
          simp only [Prog.bind_assoc]
          congr 1
          funext _
          exact ih (by omega)

/-- **`namei`** walks over the names, from the root or from the current directory. -/
theorem namei_eq_walk (p : Pid) (path : List UInt8) :
    namei p path = (Prog.lift (namexStart p path)).bind fun ip =>
      walk p ((components path).map (List.take DIRSIZ)) ip := by
  rw [← elements_eq (Nat.lt_succ_self _), namei, namex, bind_eq_bind, bind_eq_bind,
    Prog.bind_assoc]
  exact congrArg _ (funext fun ip => namexLoop_eq_walk (Nat.lt_succ_self _))

/-! ## 4. The two modes -/

/-- One more element, in the directory that `nameiparent` returns. -/
def lookupIn (p : Pid) (dp : Nat) (name : List UInt8) : KProg (Option Nat) := do
  ilock dp
  match ← atomic (dirlookup dp name) with
  | none =>
    iunlockput p dp
    return none
  | some (ip, _) =>
    iunlockput p dp
    return some ip

/-- The last element is looked up. -/
def lookupLast (p : Pid) : Option (Nat × List UInt8) → KProg (Option Nat)
  | none => return none
  | some (dp, name) => lookupIn p dp name

section

variable {p : Pid} {k : Kern} {ip : Nat}

/-- What is known of an inode after `ilock`. -/
structure Locked (p : Pid) (ip : Nat) (k : Kern) : Prop where
  lock : k.fs.lock ip = some p
  valid : k.fs.valid ip = true
  ref : 0 < k.fs.ref ip

theorem wp_ilock_locked : wp ((ilock ip).seq p) (fun _ => Locked p ip) (fun _ => True) k := by
  simp only [ilock, bind_eq_bind, wp_seq_bind, wp_atomic, wp_bind, wp_get, wp_ite, wp_throw,
    wp_pure]
  refine ⟨fun _ => trivial, fun href => ?_⟩
  rw [Prog.lock, Prog.wp_seq_acquire]
  split
  next =>
    have hlock : (k.fs.setLock ip (some p)).lock ip = some p := update_self ..
    simp only [wp_seq_ret, grab_eq, ilockRead, wp_bind, wp_get, wp_ite, wp_throw, wp_set, wp_pure,
      implies_true, true_and, setLock_valid]
    have hpos : 0 < k.fs.ref ip := not_lt.mp href
    refine ⟨fun _ _ _ => ⟨hlock, update_self .., hpos⟩, fun hv => ?_⟩
    exact ⟨hlock, by simpa using hv, hpos⟩
  next => trivial

/-- To unlock an inode and to lock it again changes nothing. -/
theorem wp_relock (h : Locked p ip k) {Q : Unit → Kern → Prop} {E : Stop Panic Want → Prop} :
    wp ((iunlock p ip).seq p) (fun _ k' => wp ((ilock ip).seq p) Q E k') E k ↔ Q () k := by
  have hout : wp ((iunlock p ip).seq p) (fun _ k' => k' = { k with fs := k.fs.setLock ip none })
      (fun _ => False) k := wp_iunlock_release h.lock h.ref rfl
  obtain ⟨⟨⟩, k', hrun, rfl⟩ := wp_returns hout
  have hback : (k.fs.setLock ip none).setLock ip (some p) = k.fs := by
    simp only [FileSys.setLock, update_idem, ← h.lock, update_eq_self]
  have hin : wp ((ilock ip).seq p) (fun _ k' => k' = k) (fun _ => False)
      { k with fs := k.fs.setLock ip none } := by
    have hfree : Locking.holder (P := Pid) { k with fs := k.fs.setLock ip none }
        (⟨.ilock, ip⟩ : Want) = none := update_self ..
    simp only [ilock, bind_eq_bind, wp_seq_bind, wp_atomic, wp_bind, wp_get, wp_ite,
      wp_throw, wp_pure, wp_seq_lock_free hfree, grab_eq, hback, ilockRead, wp_set, h.valid]
    have href := h.ref
    exact ⟨fun hc => absurd href (by simpa using hc),
      fun _ => ⟨fun hc => absurd hc (by decide), fun _ => trivial⟩⟩
  obtain ⟨⟨⟩, k', hrun', hk'⟩ := wp_returns hin
  rw [hk'] at hrun'
  refine ⟨fun hq => ?_, fun hq => wp_ok hrun (wp_ok hrun' hq)⟩
  have hmid := wp_of_ok hq hrun
  exact wp_of_ok hmid hrun'

theorem wp_itype_eq {s : FileSys} {Q : Int → FileSys → Prop} {E : Panic → Prop} :
    wp (itype ip) Q E s ↔ Q (s.inode ip).type s := Iff.rfl

/-- The two modes of the loop, for a path that has an element. -/
theorem wp_namexLoop_parent {n : Nat} {path : List UInt8} (hn : path.length < n)
    (hsome : skipelem path ≠ none) {Q : Option Nat → Kern → Prop} {E : Stop Panic Want → Prop} :
    wp (((namexLoop p false n ip path).bind fun r => .ret (r.map Prod.fst)).seq p) Q E k ↔
      wp (((namexLoop p true n ip path).bind (lookupLast p)).seq p) Q E k := by
  induction n generalizing ip path k with
  | zero => exact absurd hn (Nat.not_lt_zero _)
  | succ n ih =>
    rw [namexLoop, namexLoop]
    obtain ⟨⟨name, rest⟩, hskip⟩ := Option.ne_none_iff_exists'.mp hsome
    have hlen := skipelem_length hskip
    obtain ⟨-, -, -, hrest⟩ := skipelem_some hskip
    rw [hskip]
    simp only [Bool.false_eq_true, false_and, if_false, bind_eq_bind, wp_seq_bind,
      wp_atomic]
    refine wp_congr_of wp_ilock_locked fun _ k₁ hk₁ => ?_
    rw [wp_itype_eq, wp_itype_eq]
    by_cases hdir : (k₁.fs.inode ip).type ≠ T_DIR
    · simp only [if_pos hdir, wp_seq_bind]
      rfl
    rw [if_neg hdir, if_neg hdir]
    by_cases hlast : rest = []
    · subst hlast
      obtain ⟨n, rfl⟩ : ∃ m, n = m + 1 := ⟨n - 1, by omega⟩
      -- the directory is unlocked, and locked again
      simp only [true_and, if_true, wp_seq_bind, wp_atomic, pure_eq_ret, wp_seq_ret,
        lookupLast, lookupIn, bind_eq_bind, wp_relock hk₁]
      refine wp_congr fun o s => ?_
      cases o with
      | none => simp only [wp_seq_bind, wp_seq_ret, Option.map_none]
      | some x =>
        simp only [wp_seq_bind]
        rfl
    · have hskip' : skipelem rest ≠ none := by
        rw [skipelem, hrest]
        cases rest with
        | nil => exact absurd rfl hlast
        | cons c cs => exact Option.some_ne_none _
      simp only [hlast, and_false, if_false, wp_seq_bind, wp_atomic]
      refine wp_congr fun o s => ?_
      cases o with
      | none =>
        simp only [wp_seq_bind]
        rfl
      | some x =>
        simp only [wp_seq_bind]
        refine wp_congr fun _ k₂ => ?_
        have hnext := @ih k₂ x.1 rest (by omega) hskip'
        rwa [wp_seq_bind, wp_seq_bind] at hnext

/-- **The two modes agree**: `namei` is `nameiparent`, and one more lookup. -/
theorem namei_eq_lookup {path : List UInt8} (hpath : components path ≠ []) :
    (namei p path).seq p k = ((nameiparent p path).bind (lookupLast p)).seq p k := by
  have hskip : skipelem path ≠ none := fun h => hpath (skipelem_none h)
  refine wp_ext fun Q E => ?_
  simp only [namei, nameiparent, namex, bind_eq_bind, Prog.bind_assoc]
  rw [wp_seq_bind, wp_seq_bind]
  exact wp_congr fun ip k₁ => wp_namexLoop_parent (Nat.lt_succ_self _) hskip

end

/-! ## 5. What the directories say -/

/-- The inode that the names lead to. -/
def resolve (view : Nat → File) : List (List UInt8) → Nat → Option Nat
  | [], ip => some ip
  | name :: names, ip =>
    if (view ip).type ≠ T_DIR then none
    else ((view ip).lookup name).bind fun e => resolve view names e.2.inum

/-- The panics of a walk: a limit is reached, a directory is not well formed, or an entry leads to a
free inode. -/
def Halts (e : Stop Panic Want) : Prop :=
  ∃ q, e = .panic q ∧ (Limit q ∨ q.isCorrupt = true ∨ q = .noType)

/-- Files are as they were, or have been freed. -/
def OrFreed (view view' : Nat → File) : Prop := ∀ j, view' j = view j ∨ (view' j).type = 0

theorem OrFreed.trans {v₀ v₁ v₂ : Nat → File} (h : OrFreed v₀ v₁) (h' : OrFreed v₁ v₂) :
    OrFreed v₀ v₂ := fun j => by
  rcases h' j with e | e
  · rw [e]
    exact h j
  · exact .inr e

section

variable {c : Ctx} {base : Nat → Nat} {out ip : Nat} {L L' T T' : List Nat} {k : Kern}
  {E : Stop Panic Want → Prop}

theorem Sits.wp_iunlockput (h : Sits c base out L T k.fs) (hL : L.Perm (ip :: L'))
    (hT : T.Perm (ip :: T')) {Q : Unit → Kern → Prop}
    (hQ : ∀ s', Sits c base out L' T' s' → OrFreed k.fs.view s'.view → Q () { k with fs := s' })
    (hE : ∀ e, Limit e → E (.panic e)) : wp ((iunlockput c.p ip).seq c.p) Q E k := by
  have hnot : ip ∉ L' := (List.nodup_cons.mp (hL.nodup_iff.mp h.nodup)).1
  rw [iunlockput, bind_eq_bind, wp_seq_bind]
  refine h.wp_iunlock hL fun s₁ h₁ hview _ _ => ?_
  refine Sits.wp_iput h₁ hnot hT (fun s₂ h₂ hview₂ _ _ => hQ s₂ h₂ fun j => .inl ?_)
    (fun s₂ h₂ hview₂ _ _ _ _ => hQ s₂ h₂ fun j => ?_) hE
  · rw [hview₂]
    exact congrFun hview j
  · rw [hview₂]
    by_cases hj : j = ip
    · rw [hj, update_self]
      exact .inr rfl
    · rw [update_of_ne hj]
      exact .inl (congrFun hview j)

theorem wp_walk {v : Nat → File} {names : List (List UInt8)} (h : Sits c base out [] (ip :: T) k.fs)
    (hv : OrFreed v k.fs.view) :
    wp ((walk c.p names ip).seq c.p) (fun r _ => r = resolve v names ip) Halts k := by
  induction names generalizing ip k with
  | nil => exact rfl
  | cons name names ih =>
    have hlimit : ∀ e, Limit e → Halts (.panic e) := fun e he => ⟨e, rfl, .inl he⟩
    simp only [walk, bind_eq_bind, wp_seq_bind]
    refine h.wp_ilock List.not_mem_nil (h.ref_pos List.mem_cons_self) (fun s₁ h₁ hview _ _ htype => ?_)
      (fun _ => ⟨_, rfl, .inr (.inr rfl)⟩) (hlimit _ rfl)
    -- what is locked has not been freed on the way
    have hip : s₁.view ip = v ip := by
      rw [hview]
      exact (hv ip).resolve_right htype
    have hv₁ : OrFreed v s₁.view := by
      rw [hview]
      exact hv
    rw [wp_atomic, h₁.wp_itype List.mem_cons_self, wp_seq_ite, resolve, hip]
    refine ⟨fun hdir => ?_, fun hdir => ?_⟩
    · simp only [wp_seq_bind, if_pos hdir]
      exact h₁.wp_iunlockput (.refl _) (.refl _) (fun _ _ _ => rfl) hlimit
    · simp only [wp_seq_bind, wp_atomic, if_neg hdir]
      refine wp_dirlookup h₁.good (h₁.valid ip List.mem_cons_self) (fun e _ hlook => ?_)
        (fun _ hlook => ?_) (fun hc => ?_) (fun _ _ => ⟨_, rfl, .inr (.inl rfl)⟩)
        fun _ _ _ => hlimit _ rfl
      · simp only [wp_seq_bind]
        rw [hip] at hlook
        rw [hlook, Option.bind_some]
        refine (h₁.got e.2.inum).wp_iunlockput (.refl _) (.swap ..) (fun s₂ h₂ hv₂ => ?_) hlimit
        rw [(h₁.good.got e.2.inum).2] at hv₂
        exact ih h₂ (hv₁.trans hv₂)
      · simp only [wp_seq_bind]
        rw [hip] at hlook
        rw [hlook, Option.bind_none]
        exact h₁.wp_iunlockput (.refl _) (.refl _) (fun _ _ _ => rfl) hlimit
      · rw [hip] at hc
        exact absurd hc hdir

end

/-- Where a path begins. -/
def pathStart (k : Kern) (p : Pid) (path : List UInt8) : Nat :=
  if path.head? = some slash then ROOTINO else k.cwd p

/-- In a consistent state, with no lock taken, `namei` returns what the directories say. -/
theorem wp_namei_resolve {p : Pid} {k : Kern} (path : List UInt8) (hg : Good k.fs)
    (hl : ∀ i, k.fs.lock i = none) :
    wp ((namei p path).seq p) (fun r _ => r = resolve k.fs.view
      ((components path).map (List.take DIRSIZ)) (pathStart k p path)) Halts k := by
  have hlax : Names.Lax fun _ _ => True :=
    ⟨fun _ _ _ => trivial, fun _ _ => trivial, fun _ _ => trivial, fun _ _ => trivial⟩
  have hstart := at_start (p := p) hg hl hlax
  have hlimit : ∀ e, Limit e → Halts (.panic e) := fun e he => ⟨e, rfl, .inl he⟩
  rw [namei_eq_walk]
  simp only [wp_seq_bind, wp_seq_lift, namexStart, wp_ite, wp_bind, wp_onFs, wp_pure, getCwd,
    wp_get]
  refine ⟨fun hroot => ?_, fun hrel => ?_⟩
  · refine wp_iget ?_ fun _ _ => hlimit _ rfl
    rw [pathStart, if_pos hroot]
    refine wp_walk (c := k.ctx p (fun _ _ => True) hlax) (hstart.toSits.got ROOTINO) fun j => .inl ?_
    exact congrFun (hg.got ROOTINO).2 j
  · simp only [idup, wp_modify]
    rw [pathStart, if_neg hrel]
    refine wp_walk (c := k.ctx p (fun _ _ => True) hlax) (hstart.toSits.dup (k.cwd p)) fun j => .inl ?_
    exact congrFun (hg.setRef _).2 j

/-- **Path resolution.**  The names are the components of the path, cut to DIRSIZ bytes; `namei` walks
over them from the root or from the current directory, and finds what the directories say; and if there
is a name at all, it does what `nameiparent` and one more lookup do. -/
theorem path_resolution (p : Pid) (path buf : List UInt8) (h0 : 0 ∉ path)
    (hbuf : buf.length = DIRSIZ) (k : Kern) :
    (List.Forall₂ Holds (components path) (buffers (path.length + 1) path buf) ∧
      (buffers (path.length + 1) path buf).map (cstring DIRSIZ) =
        (components path).map (List.take DIRSIZ)) ∧
    namei p path = ((Prog.lift (namexStart p path)).bind fun ip =>
      walk p ((components path).map (List.take DIRSIZ)) ip) ∧
    (Good k.fs → (∀ i, k.fs.lock i = none) →
      wp ((namei p path).seq p) (fun r _ => r = resolve k.fs.view
        ((components path).map (List.take DIRSIZ)) (pathStart k p path)) Halts k) ∧
    (components path ≠ [] →
      (∀ e, (nameiparent p path).seq p k = .error e → (namei p path).seq p k = .error e) ∧
      (∀ k', (nameiparent p path).seq p k = .ok (none, k') →
        (namei p path).seq p k = .ok (none, k')) ∧
      ∀ dp name k', (nameiparent p path).seq p k = .ok (some (dp, name), k') →
        (namei p path).seq p k = (lookupIn p dp name).seq p k') := by
  refine ⟨⟨buffers_holds hbuf (Nat.lt_succ_self _), ?_⟩, namei_eq_walk p path,
    wp_namei_resolve path, fun hpath => ?_⟩
  · rw [buffers_cstring hbuf h0, elements_eq (Nat.lt_succ_self _)]
  · rw [namei_eq_lookup hpath]
    refine ⟨fun e he => Prog.seq_bind_error he, fun k' hk' => ?_, fun dp name k' hk' => ?_⟩
    · exact (Prog.seq_bind_ok hk').trans rfl
    · exact Prog.seq_bind_ok hk'

theorem path_resolution_slashes : components [47, 97, 47, 47, 98, 47] = [[97], [98]] ∧
    List.Forall₂ Holds (components [47, 97, 47, 47, 98, 47])
      (buffers 7 [47, 97, 47, 47, 98, 47] (List.replicate DIRSIZ 0)) ∧
    (∀ e, (nameiparent 0 [47, 97, 47, 47, 98, 47]).seq 0 image = .error e →
      (namei 0 [47, 97, 47, 47, 98, 47]).seq 0 image = .error e) := by
  have hpath : components [47, 97, 47, 47, 98, 47] = [[97], [98]] := by decide
  obtain ⟨⟨hnames, -⟩, -, -, hmodes⟩ := path_resolution 0 [47, 97, 47, 47, 98, 47]
    (List.replicate DIRSIZ 0) (by decide) (List.length_replicate ..) image
  exact ⟨hpath, hnames, (hmodes (by rw [hpath]; exact List.cons_ne_nil _ _)).1⟩

end Xv6.Fs
