/-
# `grep` and the reads that feed it

The loop of `grep.c` reads into a buffer, looks for newlines in it, and moves an unfinished line to
the front of the buffer.  What a read brings is not up to `grep`: a pipe gives what it has.

* `grep_eq`: what is written are the lines that match, of the lines as `grep` sees them
  (`seenLines`).  If a read brings no newline, `p == buf` holds after it and the code sets `m = 0`:
  the unfinished line is thrown away, with what the read has brought.
* `grep_faithful_iff`: so all is well exactly if every read that is followed by a newline brings one.
-/
import Xv6.User.Regex

namespace Xv6.Grep

/-! ## 1. The code -/

abbrev NL : UInt8 := 10

/-- `sizeof(buf)`. -/
abbrev BUFSIZE : Nat := 1024

/-- `strchr(p, '\n')`, as what stands before the newline and behind it. -/
def strchr : List UInt8 → Option (List UInt8 × List UInt8)
  | [] => none
  | c :: s =>
    if c = 0 then none
    else if c = NL then some ([], s)
    else (strchr s).map fun x => (c :: x.1, x.2)

/-- The inner loop: what it writes, and what `p` points to when it ends.  Each turn takes a newline
away, so there are not more of them than bytes. -/
def scan (pattern : List UInt8) : Nat → List UInt8 → List UInt8 × List UInt8
  | 0, p => ([], p)
  | n + 1, p =>
    match strchr p with
    | none => ([], p)
    | some (line, rest) =>
      let x := scan pattern n rest
      (if matchText pattern line then line ++ [NL] ++ x.1 else x.1, x.2)

/-- The loop of `grep`, where `buf` are the first `m` bytes of the buffer and the list says what the
reads bring; `none` if a read brings more than it was asked for. -/
def grepLoop (pattern : List UInt8) : List UInt8 → List (List UInt8) → Option (List UInt8)
  | _, [] => some []
  | buf, chunk :: chunks =>
    if BUFSIZE - buf.length - 1 < chunk.length then none
    else
      let buf := buf ++ chunk
      let x := scan pattern buf.length buf
      let buf := if x.2.length = buf.length then [] else x.2
      (grepLoop pattern buf chunks).map (x.1 ++ ·)

def grep (pattern : List UInt8) (chunks : List (List UInt8)) : Option (List UInt8) :=
  grepLoop pattern [] chunks

/-! ## 2. Lines -/

/-- The lines of a text that end with a newline, without it. -/
def lines : List UInt8 → List (List UInt8)
  | [] => []
  | c :: s =>
    if c = NL then [] :: lines s
    else
      match lines s with
      | [] => []
      | line :: rest => (c :: line) :: rest

/-- What stands behind the last newline. -/
def unfinished : List UInt8 → List UInt8
  | [] => []
  | c :: s => if NL ∈ s then unfinished s else if c = NL then s else c :: s

/-- The lines with their newlines. -/
def unlines (ls : List (List UInt8)) : List UInt8 := ls.flatMap (· ++ [NL])

/-- **What `grep` should write**: the lines that match, complete and in order. -/
def matching (pattern text : List UInt8) : List UInt8 :=
  unlines ((lines text).filter (matchText pattern))

/-- The lines as `grep` sees them, where `buf` is the unfinished line in the buffer. -/
def seenLines : List UInt8 → List (List UInt8) → List (List UInt8)
  | _, [] => []
  | buf, chunk :: chunks =>
    match lines chunk with
    | [] => seenLines [] chunks
    | line :: rest => (buf ++ line) :: rest ++ seenLines (unfinished chunk) chunks

/-- The reads: none of them is empty, or brings more than it was asked for. -/
def Served : List UInt8 → List (List UInt8) → Prop
  | _, [] => True
  | buf, chunk :: chunks =>
    chunk ≠ [] ∧ chunk.length ≤ BUFSIZE - buf.length - 1 ∧
      Served (if NL ∈ chunk then unfinished chunk else []) chunks

section

variable {pattern buf text line rest : List UInt8} {ls : List (List UInt8)}

@[simp] theorem unlines_nil : unlines [] = [] := rfl

@[simp] theorem unlines_cons : unlines (line :: ls) = line ++ NL :: unlines ls := by
  rw [unlines, List.flatMap_cons, List.append_assoc]
  rfl

theorem unlines_append {ls' : List (List UInt8)} :
    unlines (ls ++ ls') = unlines ls ++ unlines ls' :=
  List.flatMap_append

theorem lines_of_not_mem (h : NL ∉ text) : lines text = [] := by
  induction text with
  | nil => rfl
  | cons c s ih =>
    obtain ⟨hc, hs⟩ := not_or.mp (List.mem_cons.not.mp h)
    rw [lines, if_neg (Ne.symm hc), ih hs]

theorem lines_append (h : NL ∉ line) : lines (line ++ NL :: rest) = line :: lines rest := by
  induction line with
  | nil => exact if_pos rfl
  | cons c s ih =>
    obtain ⟨hc, hs⟩ := not_or.mp (List.mem_cons.not.mp h)
    rw [List.cons_append, lines, if_neg (Ne.symm hc), ih hs]

theorem unfinished_of_not_mem (h : NL ∉ text) : unfinished text = text := by
  cases text with
  | nil => rfl
  | cons c s =>
    obtain ⟨hc, hs⟩ := not_or.mp (List.mem_cons.not.mp h)
    rw [unfinished, if_neg hs, if_neg (Ne.symm hc)]

theorem unfinished_append : unfinished (line ++ NL :: rest) = unfinished rest := by
  induction line with
  | nil =>
    rw [List.nil_append, unfinished]
    split
    next => rfl
    next h => rw [if_pos rfl, unfinished_of_not_mem h]
  | cons c s ih =>
    rw [List.cons_append, unfinished, if_pos (List.mem_append_right _ List.mem_cons_self), ih]

theorem exists_line (h : NL ∈ text) : ∃ line rest, text = line ++ NL :: rest ∧ NL ∉ line := by
  induction text with
  | nil => exact absurd h List.not_mem_nil
  | cons c s ih =>
    by_cases hc : c = NL
    · exact ⟨[], s, by rw [hc]; rfl, List.not_mem_nil⟩
    · obtain ⟨line, rest, rfl, hline⟩ := ih ((List.mem_cons.mp h).resolve_left (Ne.symm hc))
      exact ⟨c :: line, rest, rfl, List.mem_cons.not.mpr (not_or.mpr ⟨Ne.symm hc, hline⟩)⟩

theorem not_mem_unfinished : NL ∉ unfinished text := by
  induction text with
  | nil => exact List.not_mem_nil
  | cons c s ih =>
    rw [unfinished]
    split_ifs with hs hc
    · exact ih
    · exact hs
    · exact List.mem_cons.not.mpr (not_or.mpr ⟨Ne.symm hc, hs⟩)

theorem unfinished_subset : unfinished text ⊆ text := by
  induction text with
  | nil => exact List.Subset.refl _
  | cons c s ih =>
    rw [unfinished]
    split_ifs
    · exact List.subset_cons_of_subset c ih
    · exact List.subset_cons_self c s
    · exact List.Subset.refl _

theorem length_unfinished_le : (unfinished text).length ≤ text.length := by
  induction text with
  | nil => exact le_rfl
  | cons c s ih =>
    rw [unfinished]
    split_ifs
    · exact ih.trans (Nat.le_succ _)
    · exact Nat.le_succ _
    · exact le_rfl

/-- The lines can be read back. -/
theorem lines_unlines (h : ∀ line ∈ ls, NL ∉ line) : lines (unlines ls) = ls := by
  induction ls with
  | nil => rfl
  | cons line ls ih =>
    obtain ⟨hline, hls⟩ := List.forall_mem_cons.mp h
    rw [unlines_cons, lines_append hline, ih hls]

theorem not_mem_lines : ∀ line ∈ lines text, NL ∉ line := by
  induction text with
  | nil => exact List.forall_mem_nil _
  | cons c s ih =>
    rw [lines]
    split
    next => exact List.forall_mem_cons.mpr ⟨List.not_mem_nil, ih⟩
    next hc =>
      split
      next => exact List.forall_mem_nil _
      next line rest heq =>
        rw [heq] at ih
        obtain ⟨hline, hrest⟩ := List.forall_mem_cons.mp ih
        exact List.forall_mem_cons.mpr
          ⟨List.mem_cons.not.mpr (not_or.mpr ⟨Ne.symm hc, hline⟩), hrest⟩

/-- The lines of two texts, one behind the other: the unfinished line goes on in the second. -/
theorem lines_append_text : lines (text ++ rest) = lines text ++ lines (unfinished text ++ rest) := by
  induction text with
  | nil => rfl
  | cons c s ih =>
    by_cases hs : NL ∈ s
    · obtain ⟨line, rest', rfl, hline⟩ := exists_line hs
      rw [unfinished_append, lines_append hline] at ih
      rw [List.cons_append, lines, ih, unfinished, if_pos hs, unfinished_append, lines,
        lines_append hline]
      split <;> rfl
    · rw [unfinished_of_not_mem hs, lines_of_not_mem hs] at ih
      by_cases hc : c = NL
      · rw [List.cons_append, lines, lines, lines_of_not_mem hs, unfinished, if_pos hc, if_pos hc,
          if_pos hc, if_neg hs]
        rfl
      · have hcons : NL ∉ c :: s := List.mem_cons.not.mpr (not_or.mpr ⟨Ne.symm hc, hs⟩)
        rw [unfinished_of_not_mem hcons, lines_of_not_mem hcons]
        rfl

/-! ## 3. What the loops do -/

theorem strchr_of_not_mem (h : NL ∉ text) : strchr text = none := by
  induction text with
  | nil => rfl
  | cons c s ih =>
    obtain ⟨hc, hs⟩ := not_or.mp (List.mem_cons.not.mp h)
    rw [strchr, if_neg (Ne.symm hc), ih hs]
    exact ite_self none

theorem strchr_append (h : NL ∉ line) (h0 : 0 ∉ line) :
    strchr (line ++ NL :: rest) = some (line, rest) := by
  induction line with
  | nil => rfl
  | cons c s ih =>
    obtain ⟨hc, hs⟩ := not_or.mp (List.mem_cons.not.mp h)
    obtain ⟨hc0, hs0⟩ := not_or.mp (List.mem_cons.not.mp h0)
    rw [List.cons_append, strchr, if_neg (Ne.symm hc0), if_neg (Ne.symm hc), ih hs hs0]
    rfl

/-- The inner loop, on a whole buffer. -/
theorem scan_eq {n : Nat} (hn : text.length ≤ n) (h0 : 0 ∉ text) :
    scan pattern n text = (matching pattern text, unfinished text) := by
  induction n generalizing text with
  | zero =>
    rw [List.length_eq_zero_iff.mp (Nat.le_zero.mp hn)]
    rfl
  | succ n ih =>
    rw [scan]
    by_cases hnl : NL ∈ text
    · obtain ⟨line, rest, rfl, hline⟩ := exists_line hnl
      have hlen : rest.length ≤ n := by
        rw [List.length_append, List.length_cons] at hn
        omega
      have h0line : 0 ∉ line := fun h => h0 (List.mem_append_left _ h)
      have h0rest : 0 ∉ rest := fun h => h0 (List.mem_append_right _ (List.mem_cons_of_mem _ h))
      rw [strchr_append hline h0line]
      simp only [ih hlen h0rest, matching, lines_append hline, unfinished_append, List.filter_cons]
      split
      next => rw [unlines_cons, List.append_assoc, List.singleton_append]
      next => rfl
    · rw [strchr_of_not_mem hnl, matching, lines_of_not_mem hnl, unfinished_of_not_mem hnl]
      rfl

/-- **What `grep` writes**: the lines that match, of those that it sees. -/
theorem grepLoop_eq {chunks : List (List UInt8)} (hbuf : NL ∉ buf) (h0 : 0 ∉ buf ++ chunks.flatten)
    (hserved : Served buf chunks) : grepLoop pattern buf chunks =
      some (unlines ((seenLines buf chunks).filter (matchText pattern))) := by
  induction chunks generalizing buf with
  | nil => rfl
  | cons chunk chunks ih =>
    obtain ⟨-, hlen, hserved⟩ := hserved
    rw [List.flatten_cons, ← List.append_assoc] at h0
    have h0buf : 0 ∉ buf ++ chunk := fun h => h0 (List.mem_append_left _ h)
    have h0rest : 0 ∉ chunks.flatten := fun h => h0 (List.mem_append_right _ h)
    rw [grepLoop, if_neg (not_lt.mpr hlen)]
    simp only [scan_eq le_rfl h0buf]
    by_cases hnl : NL ∈ chunk
    · rw [if_pos hnl] at hserved
      obtain ⟨line, rest, rfl, hline⟩ := exists_line hnl
      have hfirst : NL ∉ buf ++ line := by
        rw [List.mem_append, not_or]
        exact ⟨hbuf, hline⟩
      have hle : (unfinished rest).length ≤ rest.length := length_unfinished_le
      have h0chunk : 0 ∉ unfinished rest ++ chunks.flatten := by
        rw [List.mem_append, not_or]
        refine ⟨fun h => h0buf ?_, h0rest⟩
        exact List.mem_append_right _ (List.mem_append_right _
          (List.mem_cons_of_mem _ (unfinished_subset h)))
      rw [unfinished_append] at hserved
      rw [← List.append_assoc, unfinished_append, if_neg, ih not_mem_unfinished h0chunk hserved,
        matching, lines_append hfirst, seenLines, lines_append hline, unfinished_append]
      · rw [Option.map_some, List.filter_append, unlines_append]
      · simp only [List.length_append, List.length_cons]
        omega
    · rw [if_neg hnl] at hserved
      have hall : NL ∉ buf ++ chunk := by
        rw [List.mem_append, not_or]
        exact ⟨hbuf, hnl⟩
      rw [unfinished_of_not_mem hall, if_pos rfl, ih List.not_mem_nil h0rest hserved, matching,
        lines_of_not_mem hall, seenLines, lines_of_not_mem hnl]
      rfl

/-! ## 4. What is lost -/

section

variable {chunks : List (List UInt8)}

/-- Every read that a newline follows brings one. -/
def Ended (chunks : List (List UInt8)) : Prop :=
  ∀ pre chunk post, chunks = pre ++ chunk :: post → NL ∈ chunk ∨ NL ∉ post.flatten

theorem Ended.tail {chunk : List UInt8} (h : Ended (chunk :: chunks)) : Ended chunks :=
  fun pre c post heq => h (chunk :: pre) c post (by rw [heq]; rfl)

theorem Ended.cons {chunk : List UInt8} (hchunk : NL ∈ chunk ∨ NL ∉ chunks.flatten)
    (h : Ended chunks) : Ended (chunk :: chunks) := by
  intro pre c post heq
  cases pre with
  | nil =>
    obtain ⟨rfl, rfl⟩ := List.cons_eq_cons.mp heq
    exact hchunk
  | cons _ pre => exact h pre c post (List.cons_eq_cons.mp heq).2

theorem seenLines_of_not_mem (h : NL ∉ chunks.flatten) : seenLines buf chunks = [] := by
  induction chunks generalizing buf with
  | nil => rfl
  | cons chunk chunks ih =>
    rw [List.flatten_cons, List.mem_append, not_or] at h
    rw [seenLines, lines_of_not_mem h.1]
    exact ih h.2

/-- A read that brings a newline ends the line in the buffer, for `grep` and in the text. -/
theorem seenLines_cons (chunks : List (List UInt8)) (hbuf : NL ∉ buf) {chunk : List UInt8}
    (h : NL ∈ chunk) :
    ∃ ls, seenLines buf (chunk :: chunks) = ls ++ seenLines (unfinished chunk) chunks ∧
      lines (buf ++ (chunk :: chunks).flatten) =
        ls ++ lines (unfinished chunk ++ chunks.flatten) := by
  obtain ⟨line, rest, rfl, hline⟩ := exists_line h
  have hfirst : NL ∉ buf ++ line := by
    rw [List.mem_append, not_or]
    exact ⟨hbuf, hline⟩
  refine ⟨(buf ++ line) :: lines rest, ?_, ?_⟩
  · rw [seenLines, lines_append hline]
  · rw [List.flatten_cons, ← List.append_assoc, ← List.append_assoc, List.append_assoc,
      List.cons_append, lines_append hfirst, lines_append_text, unfinished_append]
    rfl

theorem seenLines_eq (hbuf : NL ∉ buf) (h : Ended chunks) :
    seenLines buf chunks = lines (buf ++ chunks.flatten) := by
  induction chunks generalizing buf with
  | nil => exact (lines_of_not_mem (by rwa [List.flatten_nil, List.append_nil])).symm
  | cons chunk chunks ih =>
    by_cases hnl : NL ∈ chunk
    · obtain ⟨ls, hseen, hlines⟩ := seenLines_cons chunks hbuf hnl
      rw [hseen, hlines, ih not_mem_unfinished h.tail]
    · have hpost := (h [] chunk chunks rfl).resolve_left hnl
      have hall : NL ∉ (chunk :: chunks).flatten := by
        rw [List.flatten_cons, List.mem_append, not_or]
        exact ⟨hnl, hpost⟩
      rw [seenLines_of_not_mem hall, lines_of_not_mem]
      rw [List.mem_append, not_or]
      exact ⟨hbuf, hall⟩

/-- `grep` does not see more than there is, and what a read has brought without a newline is missing
if one follows. -/
theorem length_seenLines_le (hbuf : NL ∉ buf) (hne : ∀ chunk ∈ chunks, chunk ≠ []) :
    (unlines (seenLines buf chunks)).length ≤
        (unlines (lines (buf ++ chunks.flatten))).length ∧
      ((unlines (seenLines buf chunks)).length =
        (unlines (lines (buf ++ chunks.flatten))).length → Ended chunks) := by
  induction chunks generalizing buf with
  | nil => exact ⟨Nat.zero_le _, fun _ pre c post h => by simp at h⟩
  | cons chunk chunks ih =>
    obtain ⟨hchunk, hne⟩ := List.forall_mem_cons.mp hne
    by_cases hnl : NL ∈ chunk
    · obtain ⟨ls, hseen, hlines⟩ := seenLines_cons chunks hbuf hnl
      obtain ⟨hle, hended⟩ := @ih (unfinished chunk) not_mem_unfinished hne
      rw [hseen, hlines, unlines_append, unlines_append, List.length_append, List.length_append]
      exact ⟨Nat.add_le_add_left hle _, fun h => .cons (.inl hnl) (hended (Nat.add_left_cancel h))⟩
    · have hfirst : NL ∉ buf ++ chunk := by
        rw [List.mem_append, not_or]
        exact ⟨hbuf, hnl⟩
      obtain ⟨hle, hended⟩ := @ih [] List.not_mem_nil hne
      rw [seenLines, lines_of_not_mem hnl, List.flatten_cons, ← List.append_assoc]
      by_cases hpost : NL ∈ chunks.flatten
      · -- the line that ends next has lost at least the bytes of this read
        obtain ⟨line, rest, heq, hline⟩ := exists_line hpost
        have hlong : NL ∉ buf ++ chunk ++ line := by
          rw [List.mem_append, not_or]
          exact ⟨hfirst, hline⟩
        rw [heq] at hle ⊢
        rw [List.nil_append, lines_append hline] at hle
        rw [← List.append_assoc, lines_append hlong]
        have hpos := List.length_pos_iff.mpr hchunk
        simp only [unlines_cons, List.length_append, List.length_cons] at hle ⊢
        exact ⟨by omega, fun h => by omega⟩
      · rw [seenLines_of_not_mem hpost]
        refine ⟨Nat.zero_le _, fun _ => .cons (.inr hpost) (hended ?_)⟩
        rw [seenLines_of_not_mem hpost, List.nil_append, lines_of_not_mem hpost]

theorem not_mem_seenLines (hbuf : NL ∉ buf) : ∀ line ∈ seenLines buf chunks, NL ∉ line := by
  induction chunks generalizing buf with
  | nil => exact List.forall_mem_nil _
  | cons chunk chunks ih =>
    have hmem : ∀ line ∈ lines chunk, NL ∉ line := not_mem_lines
    rw [seenLines]
    split
    next => exact ih List.not_mem_nil
    next line rest heq =>
      rw [heq] at hmem
      obtain ⟨hline, hrest⟩ := List.forall_mem_cons.mp hmem
      intro l hl
      rcases List.mem_append.mp hl with hl | hl
      · rcases List.mem_cons.mp hl with rfl | hl
        · rw [List.mem_append, not_or]
          exact ⟨hbuf, hline⟩
        · exact hrest l hl
      · exact ih not_mem_unfinished l hl

theorem Served.ne_nil (h : Served buf chunks) : ∀ chunk ∈ chunks, chunk ≠ [] := by
  induction chunks generalizing buf with
  | nil => exact List.forall_mem_nil _
  | cons chunk chunks ih => exact List.forall_mem_cons.mpr ⟨h.1, ih h.2.2⟩

theorem filter_matchText_nil : ls.filter (matchText []) = ls :=
  List.filter_eq_self.mpr fun line _ => by cases line <;> rfl

theorem grep_eq (h0 : 0 ∉ chunks.flatten) (hserved : Served [] chunks) :
    grep pattern chunks = some (unlines ((seenLines [] chunks).filter (matchText pattern))) :=
  grepLoop_eq List.not_mem_nil h0 hserved

/-- **`grep` depends on the reads**: a pattern's lines are written as they should be exactly if those
that match are the same for `grep` and in the text.  This holds for every pattern exactly if every
read that a newline follows brings one. -/
theorem grep_faithful_iff (chunks : List (List UInt8)) (h0 : 0 ∉ chunks.flatten)
    (hserved : Served [] chunks) :
    (∀ pattern, grep pattern chunks = some (matching pattern chunks.flatten) ↔
      (seenLines [] chunks).filter (matchText pattern) =
        (lines chunks.flatten).filter (matchText pattern)) ∧
    ((∀ pattern, grep pattern chunks = some (matching pattern chunks.flatten)) ↔
      ∀ pre chunk post, chunks = pre ++ chunk :: post → NL ∈ chunk ∨ NL ∉ post.flatten) := by
  refine ⟨fun pattern => ?_, fun h => ?_, fun h pattern => ?_⟩
  · rw [grep_eq h0 hserved, Option.some_inj, matching]
    refine ⟨fun h => ?_, fun h => by rw [h]⟩
    have hseen : ∀ line ∈ (seenLines [] chunks).filter (matchText pattern), NL ∉ line :=
      fun line hline => not_mem_seenLines List.not_mem_nil line (List.mem_of_mem_filter hline)
    rw [← lines_unlines hseen, h, lines_unlines]
    exact fun line hline => not_mem_lines line (List.mem_of_mem_filter hline)
  · have hall := h []
    rw [grep_eq h0 hserved, Option.some_inj, matching, filter_matchText_nil,
      filter_matchText_nil] at hall
    refine (length_seenLines_le List.not_mem_nil hserved.ne_nil).2 ?_
    rw [hall, List.nil_append]
  · rw [grep_eq h0 hserved, matching, seenLines_eq List.not_mem_nil h, List.nil_append]

/-- The line `abc` comes in two reads, and is not found. -/
theorem grep_loses_line :
    0 ∉ [[97, 98], [99, 10]].flatten ∧ Served [] [[97, 98], [99, 10]] ∧
      grep [97, 98] [[97, 98], [99, 10]] = some [] ∧
      matching [97, 98] [[97, 98], [99, 10]].flatten = [97, 98, 99, 10] := by
  refine ⟨by decide, ⟨by decide, by decide, by decide, by decide, trivial⟩, by decide, by decide⟩

theorem grep_faithful_iff_two_reads :
    grep [97, 98] [[97, 98, 10, 97], [98, 99, 10]] =
      some (matching [97, 98] [[97, 98, 10, 97], [98, 99, 10]].flatten) :=
  ((grep_faithful_iff [[97, 98, 10, 97], [98, 99, 10]] (by decide)
    ⟨by decide, by decide, by decide, by decide, trivial⟩).1 [97, 98]).mpr (by decide)

end

end

end Xv6.Grep
