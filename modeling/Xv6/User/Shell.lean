/-
# How the shell wires descriptors

`runcmd` of `sh.c` goes down a command tree and forks at its inner nodes.  What it does to the
descriptors are calls of `close`, `dup`, `open` and `pipe`, and it relies on new descriptors being the
lowest free ones.

Processes share no descriptors, so the run of a tree is given by the calls of `exec` at its leaves, each
with the descriptor table of its process.  An open file is named by the node of the tree that has
opened it.  Calls that fail are a parameter (`Faults`).

* `Std`: the table of a process that runs a command has descriptors 0, 1 and 2, and no others.
* `runcmd_sublist` and `runcmd_eq`: the calls of `exec` are those of the leaves, where each descriptor
  is the one that the innermost enclosing node has set (`wired`).  They are all made if no call fails.
-/
import Xv6.Param

namespace Xv6.Shell

/-! ## 1. The code -/

abbrev Word := List UInt8

inductive Cmd
  | exec (argv : List Word)
  | redir (cmd : Cmd) (file : Word) (mode fd : Nat)
  | pipe (left right : Cmd)
  | list (left right : Cmd)
  | back (cmd : Cmd)
  deriving DecidableEq, Repr

/-- A node of a tree: the way to it from the root, last turn first. -/
abbrev Node := List Nat

inductive File
  /-- The one that the process has started with. -/
  | inherited (fd : Nat)
  | opened (node : Node) (file : Word) (mode : Nat)
  | readEnd (node : Node)
  | writeEnd (node : Node)
  deriving DecidableEq, Repr

/-- `ofile`. -/
abbrev Table := Nat → Option File

/-- The lowest free descriptor. -/
def fdalloc (t : Table) (f : File) : Option (Nat × Table) :=
  ((List.range NOFILE).find? fun fd => t fd = none).map fun fd => (fd, Function.update t fd (some f))

def close (t : Table) (fd : Nat) : Table := if fd < NOFILE then Function.update t fd none else t

def dup (t : Table) (fd : Nat) : Table :=
  if fd < NOFILE then
    match t fd with
    | none => t
    | some f =>
      match fdalloc t f with
      | none => t
      | some x => x.2
  else t

/-- `pipe`, with the two descriptors. -/
def pipe (t : Table) (rf wf : File) : Option (Nat × Nat × Table) := do
  let x ← fdalloc t rf
  let y ← fdalloc x.2 wf
  return (x.1, y.1, y.2)

/-- The calls that fail: at a node `open` or `pipe`, and the first or the second `fork`. -/
structure Faults where
  openFails : Node → Bool
  pipeFails : Node → Bool
  forkFails : Node → Nat → Bool

/-- A call of `exec`, with the descriptors of its process. -/
structure Call where
  argv : List Word
  ofile : Table

/-- `runcmd`: the calls of `exec` by the process and its children. -/
def runcmd (F : Faults) (node : Node) (t : Table) : Cmd → List Call
  | .exec argv => if argv = [] then [] else [⟨argv, t⟩]
  | .redir cmd file mode fd =>
    let t := close t fd
    if F.openFails node then []
    else
      match fdalloc t (.opened node file mode) with
      | none => []
      | some x => runcmd F (0 :: node) x.2 cmd
  | .list left right =>
    if F.forkFails node 0 then []
    else runcmd F (0 :: node) t left ++ runcmd F (1 :: node) t right
  | .pipe left right =>
    if F.pipeFails node then []
    else
      match pipe t (.readEnd node) (.writeEnd node) with
      | none => []
      | some (p₀, p₁, t) =>
        if F.forkFails node 0 then []
        else runcmd F (0 :: node) (close (close (dup (close t 1) p₁) p₀) p₁) left ++
          if F.forkFails node 1 then []
          else runcmd F (1 :: node) (close (close (dup (close t 0) p₀) p₀) p₁) right
  | .back cmd => if F.forkFails node 0 then [] else runcmd F (0 :: node) t cmd

/-! ## 2. What is meant -/

/-- What stands around a leaf: a redirection, or a pipe that the leaf is on one side of. -/
inductive Around
  | redir (node : Node) (file : Word) (mode fd : Nat)
  | left (node : Node)
  | right (node : Node)
  deriving DecidableEq, Repr

/-- What it sets a descriptor to. -/
def Around.sets (fd : Nat) : Around → Option File
  | .redir node file mode fd' => if fd = fd' then some (.opened node file mode) else none
  | .left node => if fd = 1 then some (.writeEnd node) else none
  | .right node => if fd = 0 then some (.readEnd node) else none

/-- The leaves, each with what stands around it, the innermost first. -/
def leaves (node : Node) (around : List Around) : Cmd → List (List Around × List Word)
  | .exec argv => if argv = [] then [] else [(around, argv)]
  | .redir cmd file mode fd => leaves (0 :: node) (.redir node file mode fd :: around) cmd
  | .list left right => leaves (0 :: node) around left ++ leaves (1 :: node) around right
  | .pipe left right =>
    leaves (0 :: node) (.left node :: around) left ++ leaves (1 :: node) (.right node :: around) right
  | .back cmd => leaves (0 :: node) around cmd

/-- Descriptors 0, 1 and 2 as the innermost enclosing node has set them, or as they are in `t`. -/
def wired (t : Table) (around : List Around) : Table := fun fd =>
  if fd < 3 then ((around.findSome? (Around.sets fd)) <|> t fd) else none

/-- Redirections are of descriptors 0, 1 or 2.  The parser builds them for 0 and 1. -/
def Redirects : Cmd → Prop
  | .exec _ => True
  | .redir cmd _ _ fd => fd < 3 ∧ Redirects cmd
  | .list left right | .pipe left right => Redirects left ∧ Redirects right
  | .back cmd => Redirects cmd

/-- The open descriptors are 0, 1 and 2. -/
def Std (t : Table) : Prop := ∀ fd, (t fd).isSome ↔ fd < 3

section

variable {t : Table} {f g : File} {fd k : Nat} {around : List Around} {node : Node}

theorem fdalloc_eq (hk : k < NOFILE) (hfree : t k = none) (hbelow : ∀ j < k, t j ≠ none) :
    fdalloc t f = some (k, Function.update t k (some f)) := by
  have hfind : (List.range NOFILE).find? (fun fd => t fd = none) = some k := by
    rw [List.find?_range_eq_some]
    exact ⟨by simpa using hfree, List.mem_range.mpr hk, fun j hj => by simpa using hbelow j hj⟩
  rw [fdalloc, hfind]
  rfl

theorem close_eq (h : k < NOFILE) : close t k = Function.update t k none := if_pos h

theorem Std.eq_none (h : Std t) (hk : ¬ k < 3) : t k = none := by
  rw [← Option.not_isSome_iff_eq_none, h]
  exact hk

theorem Std.ne_none (h : Std t) (hk : k < 3) : t k ≠ none := by
  rw [Option.ne_none_iff_isSome, h]
  exact hk

/-- `close` and `open`: the new file is where the old one was. -/
theorem Std.reopen (h : Std t) (hk : k < 3) :
    fdalloc (close t k) f = some (k, Function.update t k (some f)) := by
  have hlt : k < NOFILE := lt_trans hk (by decide)
  rw [close_eq hlt, fdalloc_eq hlt (Function.update_self ..), Function.update_idem]
  intro j hj
  rw [Function.update_of_ne hj.ne]
  exact h.ne_none (lt_trans hj hk)

/-- A pipe gets descriptors 3 and 4. -/
theorem Std.pipe (h : Std t) : Shell.pipe t f g =
    some (3, 4, Function.update (Function.update t 3 (some f)) 4 (some g)) := by
  have hfirst : fdalloc t f = some (3, Function.update t 3 (some f)) :=
    fdalloc_eq (by decide) (h.eq_none (by decide)) fun j hj => h.ne_none hj
  have hsecond : fdalloc (Function.update t 3 (some f)) g =
      some (4, Function.update (Function.update t 3 (some f)) 4 (some g)) := by
    refine fdalloc_eq (by decide) ?_ fun j hj => ?_
    · rw [Function.update_of_ne (by decide)]
      exact h.eq_none (by decide)
    · by_cases hj3 : j = 3
      · rw [hj3, Function.update_self]
        exact Option.some_ne_none f
      · rw [Function.update_of_ne hj3]
        exact h.ne_none (by omega)
  simp only [Shell.pipe, hfirst, hsecond, Option.bind_eq_bind, Option.bind_some, Option.pure_def]

/-- One side of a pipe: descriptor `k` is closed, the end with descriptor `p` is duplicated, and both
ends are closed. -/
theorem Std.side (h : Std t) (hk : k < 3) {p : Nat} {e : File} (hp : p = 3 ∨ p = 4)
    (he : Function.update (Function.update t 3 (some f)) 4 (some g) p = some e) :
    close (close (dup (close (Function.update (Function.update t 3 (some f)) 4 (some g)) k) p) 3) 4 =
      Function.update t k (some e) := by
  have hlt : k < NOFILE := lt_trans hk (by decide)
  have hp16 : p < NOFILE := by
    simp only [NOFILE]
    omega
  generalize hT : Function.update (Function.update t 3 (some f)) 4 (some g) = T at he ⊢
  have hlow : ∀ j, j < 3 → T j = t j := fun j hj => by
    rw [← hT, Function.update_of_ne (by omega), Function.update_of_ne (by omega)]
  have hend : Function.update T k none p = some e := by
    rw [Function.update_of_ne (by omega), he]
  have halloc : fdalloc (Function.update T k none) e = some (k, Function.update T k (some e)) := by
    rw [fdalloc_eq hlt (Function.update_self ..), Function.update_idem]
    intro j hj
    rw [Function.update_of_ne hj.ne, hlow j (by omega)]
    exact h.ne_none (by omega)
  have hdup : dup (close T k) p = Function.update T k (some e) := by
    simp only [dup, close_eq hlt, if_pos hp16, hend, halloc]
  rw [hdup, close_eq (by decide), close_eq (by decide)]
  funext fd
  by_cases h4 : fd = 4
  · rw [h4, Function.update_self, Function.update_of_ne (by omega), h.eq_none (by decide)]
  · by_cases h3 : fd = 3
    · rw [h3, Function.update_of_ne (by decide), Function.update_self, Function.update_of_ne (by omega),
        h.eq_none (by decide)]
    · rw [Function.update_of_ne h4, Function.update_of_ne h3]
      by_cases hfd : fd = k
      · rw [hfd, Function.update_self, Function.update_self]
      · rw [Function.update_of_ne hfd, Function.update_of_ne hfd, ← hT, Function.update_of_ne h4,
          Function.update_of_ne h3]

theorem Std.wired_nil (h : Std t) : wired t [] = t := by
  funext fd
  rw [wired]
  split
  next => rfl
  next hfd => exact (h.eq_none hfd).symm

/-- A node that sets one descriptor. -/
theorem wired_cons {a : Around} (hk : k < 3) (hset : ∀ fd, a.sets fd = if fd = k then some f else none) :
    wired t (a :: around) = Function.update (wired t around) k (some f) := by
  funext fd
  simp only [wired, List.findSome?_cons, hset]
  by_cases hfd : fd = k
  · rw [hfd, if_pos rfl, if_pos hk, Function.update_self]
    rfl
  · rw [if_neg hfd, Function.update_of_ne hfd]
    rfl

theorem Std.wired (h : Std t) : Std (wired t around) := by
  intro fd
  rw [Shell.wired]
  split
  next hfd =>
    refine ⟨fun _ => hfd, fun _ => ?_⟩
    have hsome := (h fd).mpr hfd
    cases around.findSome? (Around.sets fd) with
    | none => exact hsome
    | some f => rfl
  next hfd => exact ⟨fun hc => absurd hc Bool.false_ne_true, fun hc => absurd hc hfd⟩

end

/-! ## 3. What `runcmd` does -/

section

variable {t : Table} {around : List Around} {node : Node} {cmd left right : Cmd} {F : Faults}

/-- The call of `exec` at a leaf. -/
def call (t : Table) (leaf : List Around × List Word) : Call := ⟨leaf.2, wired t leaf.1⟩

/-- A redirection: the tree below runs with the descriptor set. -/
theorem runcmd_redir (h : Std t) {fd : Nat} (hfd : fd < 3) (file : Word) (mode : Nat) :
    runcmd F node (wired t around) (.redir cmd file mode fd) =
      if F.openFails node then []
      else runcmd F (0 :: node) (wired t (.redir node file mode fd :: around)) cmd := by
  rw [runcmd, h.wired.reopen hfd, wired_cons hfd fun _ => rfl]

/-- A pipe: each side runs with its end. -/
theorem runcmd_pipe (h : Std t) : runcmd F node (wired t around) (.pipe left right) =
    if F.pipeFails node then []
    else if F.forkFails node 0 then []
    else runcmd F (0 :: node) (wired t (.left node :: around)) left ++
      if F.forkFails node 1 then []
      else runcmd F (1 :: node) (wired t (.right node :: around)) right := by
  rw [runcmd, h.wired.pipe, wired_cons (k := 1) (by decide) fun _ => rfl,
    wired_cons (k := 0) (by decide) fun _ => rfl]
  simp only
  rw [h.wired.side (by decide) (.inr rfl) (Function.update_self ..),
    h.wired.side (by decide) (.inl rfl) (by rw [Function.update_of_ne (by decide), Function.update_self])]

/-- Whatever fails, the calls of `exec` are those of leaves. -/
theorem runcmd_sublist (h : Std t) (hcmd : Redirects cmd) :
    (runcmd F node (wired t around) cmd).Sublist ((leaves node around cmd).map (call t)) := by
  induction cmd generalizing node around with
  | exec argv =>
    rw [runcmd, leaves]
    split
    · exact List.Sublist.refl _
    · exact List.Sublist.refl _
  | redir cmd file mode fd ih =>
    rw [runcmd_redir h hcmd.1, leaves]
    split
    · exact List.nil_sublist _
    · exact ih hcmd.2
  | pipe left right ihl ihr =>
    rw [runcmd_pipe h, leaves, List.map_append]
    split_ifs
    · exact List.nil_sublist _
    · exact List.nil_sublist _
    · rw [List.append_nil]
      exact (ihl hcmd.1).trans (List.sublist_append_left _ _)
    · exact (ihl hcmd.1).append (ihr hcmd.2)
  | list left right ihl ihr =>
    rw [runcmd, leaves, List.map_append]
    split
    · exact List.nil_sublist _
    · exact (ihl hcmd.1).append (ihr hcmd.2)
  | back cmd ih =>
    rw [runcmd, leaves]
    split
    · exact List.nil_sublist _
    · exact ih hcmd

/-- No call fails. -/
structure Faults.Never (F : Faults) : Prop where
  opens : ∀ node, F.openFails node = false
  pipes : ∀ node, F.pipeFails node = false
  forks : ∀ node n, F.forkFails node n = false

/-- If nothing fails, all leaves are reached. -/
theorem runcmd_eq (h : Std t) (hF : F.Never) (hcmd : Redirects cmd) :
    runcmd F node (wired t around) cmd = (leaves node around cmd).map (call t) := by
  induction cmd generalizing node around with
  | exec argv =>
    rw [runcmd, leaves]
    split
    · rfl
    · rfl
  | redir cmd file mode fd ih =>
    rw [runcmd_redir h hcmd.1, leaves, hF.opens, ← ih hcmd.2]
    rfl
  | pipe left right ihl ihr =>
    rw [runcmd_pipe h, leaves, List.map_append, hF.pipes, hF.forks, hF.forks, ← ihl hcmd.1,
      ← ihr hcmd.2]
    rfl
  | list left right ihl ihr =>
    rw [runcmd, leaves, List.map_append, hF.forks, ← ihl hcmd.1, ← ihr hcmd.2]
    rfl
  | back cmd ih =>
    rw [runcmd, leaves, hF.forks, ← ih hcmd]
    rfl

end

/-- **The shell wires descriptors correctly.**  In a process with descriptors 0, 1 and 2, every call of
`exec` belongs to a leaf and has descriptors 0, 1 and 2 open, each as the innermost enclosing node has
set it, or else the inherited one.  If no call fails, there is one for every leaf. -/
theorem runcmd_wires (t : Table) (h : Std t) (cmd : Cmd) (hcmd : Redirects cmd) (F : Faults) :
    (∀ c ∈ runcmd F [] t cmd, ∃ leaf ∈ leaves [] [] cmd, c.argv = leaf.2 ∧
      ∀ fd, c.ofile fd =
        if fd < 3 then (leaf.1.findSome? (Around.sets fd) <|> t fd) else none) ∧
    (∀ c ∈ runcmd F [] t cmd, ∀ fd, (c.ofile fd).isSome ↔ fd < 3) ∧
    (F.Never → runcmd F [] t cmd = (leaves [] [] cmd).map fun leaf => ⟨leaf.2, wired t leaf.1⟩) := by
  have hleaf : ∀ c ∈ runcmd F [] t cmd, ∃ leaf ∈ leaves [] [] cmd, call t leaf = c := by
    intro c hc
    rw [← h.wired_nil] at hc
    exact List.mem_map.mp ((runcmd_sublist h hcmd).subset hc)
  refine ⟨fun c hc => ?_, fun c hc => ?_, fun hF => ?_⟩
  · obtain ⟨leaf, hmem, rfl⟩ := hleaf c hc
    exact ⟨leaf, hmem, rfl, fun _ => rfl⟩
  · obtain ⟨leaf, -, rfl⟩ := hleaf c hc
    exact h.wired
  · have heq : runcmd F [] (wired t []) cmd = (leaves [] [] cmd).map (call t) := runcmd_eq h hF hcmd
    rwa [h.wired_nil] at heq

/-- The table of a process that has inherited three descriptors. -/
def inherited : Table := fun fd => if fd < 3 then some (.inherited fd) else none

theorem inherited_std : Std inherited := by
  intro fd
  rw [inherited]
  split <;> simp_all

/-- `a | b > f &`. -/
def pipeline : Cmd := .back (.pipe (.exec [[97]]) (.redir (.exec [[98]]) [102] 0x201 1))

/-- Both sides run, each with its end of the pipe, and without the other. -/
theorem runcmd_wires_pipeline :
    (runcmd ⟨fun _ => false, fun _ => false, fun _ _ => false⟩ [] inherited pipeline).map
      (fun c => (c.argv, c.ofile 0, c.ofile 1, c.ofile 3)) =
    [([[97]], some (.inherited 0), some (.writeEnd [0]), none),
      ([[98]], some (.readEnd [0]), some (.opened [1, 0] [102] 0x201), none)] := by
  have hcmd : Redirects pipeline := ⟨trivial, by decide, trivial⟩
  rw [(runcmd_wires inherited inherited_std pipeline hcmd _).2.2
    ⟨fun _ => rfl, fun _ => rfl, fun _ _ => rfl⟩]
  rfl

end Xv6.Shell
