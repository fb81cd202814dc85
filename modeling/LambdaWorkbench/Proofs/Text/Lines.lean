import LambdaWorkbench.Text.Lines

/-! # Texts made of lines

To end each line with a line feed is the inverse of cutting a text into lines, as long as the lines
hold no line feed and none ends with a carriage return, which would be taken for a part of the line
end.
-/

namespace LambdaWorkbench.Text

/-- The text of lines, each ended by a line feed. -/
def unlines (lines : List String) : String :=
  String.join (lines.map (· ++ "\n"))

variable {line : List Char}

theorem lineRuns_append_newline (h : '\n' ∉ line) (rest : List Char) :
    lineRuns (line ++ '\n' :: rest) = (line ++ ['\n']) :: lineRuns rest := by
  induction line with
  | nil => rw [List.nil_append, lineRuns, if_pos rfl, List.nil_append]
  | cons c line ih =>
    rw [List.mem_cons, not_or] at h
    rw [List.cons_append, lineRuns, if_neg (Ne.symm h.1), ih h.2]
    rfl

theorem lineRuns_of_notMem (absent : '\n' ∉ line) (nonempty : line ≠ []) :
    lineRuns line = [line] := by
  induction line with
  | nil => exact absurd rfl nonempty
  | cons c rest ih =>
    rw [List.mem_cons, not_or] at absent
    rw [lineRuns, if_neg (Ne.symm absent.1)]
    cases rest with
    | nil => rfl
    | cons next rest => rw [ih absent.2 (List.cons_ne_nil _ _)]

/-- The lines of a text as they are read: nothing is lost, none is empty, a line feed is only at the
end of a line, and every line but the last has one. -/
structure PhysicalLines (cs : List Char) (runs : List (List Char)) : Prop where
  flatten_eq : runs.flatten = cs
  nonempty : ∀ run ∈ runs, run ≠ []
  single : ∀ run ∈ runs, '\n' ∉ run.dropLast
  ended : ∀ run ∈ runs.dropLast, run.getLast? = some '\n'

theorem physicalLines_nil : PhysicalLines [] [] :=
  ⟨rfl, by simp, by simp, by simp⟩

theorem physicalLines_singleton (c : Char) : PhysicalLines [c] [[c]] :=
  ⟨rfl, by simp, by simp, by simp⟩

theorem PhysicalLines.cons_newline {cs : List Char} {runs : List (List Char)}
    (h : PhysicalLines cs runs) : PhysicalLines ('\n' :: cs) (['\n'] :: runs) where
  flatten_eq := congrArg ('\n' :: ·) h.flatten_eq
  nonempty := List.forall_mem_cons.mpr ⟨List.cons_ne_nil _ _, h.nonempty⟩
  single := List.forall_mem_cons.mpr ⟨List.not_mem_nil, h.single⟩
  ended := by
    cases runs with
    | nil => exact nofun
    | cons first others => exact List.forall_mem_cons.mpr ⟨rfl, h.ended⟩

theorem PhysicalLines.cons_char {c : Char} {cs first : List Char} {others : List (List Char)}
    (h : PhysicalLines cs (first :: others)) (other : c ≠ '\n') :
    PhysicalLines (c :: cs) ((c :: first) :: others) := by
  have filled : first ≠ [] := h.nonempty first List.mem_cons_self
  obtain ⟨single, singles⟩ := List.forall_mem_cons.mp h.single
  refine ⟨congrArg (c :: ·) h.flatten_eq, ?_, ?_, ?_⟩
  · exact List.forall_mem_cons.mpr
      ⟨List.cons_ne_nil _ _, fun run mem => h.nonempty run (List.mem_cons_of_mem _ mem)⟩
  · refine List.forall_mem_cons.mpr ⟨?_, singles⟩
    rw [List.dropLast_cons_of_ne_nil filled]
    exact List.not_mem_cons_of_ne_of_not_mem other.symm single
  · cases others with
    | nil => exact nofun
    | cons second others =>
      obtain ⟨ended, rest⟩ := List.forall_mem_cons.mp h.ended
      exact List.forall_mem_cons.mpr ⟨by rw [List.getLast?_cons_of_ne_nil filled, ended], rest⟩

theorem physicalLines_lineRuns (cs : List Char) : PhysicalLines cs (lineRuns cs) := by
  induction cs with
  | nil => exact physicalLines_nil
  | cons c rest ih =>
    rw [lineRuns]
    by_cases newline : c = '\n'
    · rw [if_pos newline, newline]
      exact ih.cons_newline
    · rw [if_neg newline]
      cases runs : lineRuns rest with
      | nil =>
        obtain rfl : rest = [] := by rw [← ih.flatten_eq, runs, List.flatten_nil]
        exact physicalLines_singleton c
      | cons first others =>
        rw [runs] at ih
        exact ih.cons_char newline

theorem toList_typedLines (text : String) :
    (Text.typedLines text).map String.toList = lineRuns text.toList := by
  have same : String.toList ∘ String.ofList = id := funext fun cs => String.toList_ofList
  rw [Text.typedLines, List.map_map, same, List.map_id]

/-- A line feed is only at the end of a line. -/
theorem exists_of_mem_lineRuns {cs run : List Char} (mem : run ∈ lineRuns cs) :
    ∃ line, '\n' ∉ line ∧ (run = line ∨ run = line ++ ['\n']) := by
  have physical := physicalLines_lineRuns cs
  have absent := physical.single run mem
  obtain ⟨front, last, rfl⟩ := (List.eq_nil_or_concat run).resolve_left (physical.nonempty run mem)
  rw [List.concat_eq_append, List.dropLast_concat] at absent
  by_cases newline : last = '\n'
  · exact ⟨front, absent, .inr (by rw [List.concat_eq_append, newline])⟩
  · refine ⟨front.concat last, ?_, .inl rfl⟩
    rw [List.concat_eq_append, List.mem_append, List.mem_singleton, not_or]
    exact ⟨absent, Ne.symm newline⟩

theorem dropLineEnd_of_notMem (absent : '\n' ∉ line) : dropLineEnd line = line := by
  rw [← List.mem_reverse] at absent
  unfold dropLineEnd
  split
  · rename_i eq
    exact absurd (eq ▸ List.mem_cons_self) absent
  · rename_i eq
    exact absurd (eq ▸ List.mem_cons_self) absent
  · rfl

theorem dropLineEnd_append_newline (h : line.getLast? ≠ some '\r') :
    dropLineEnd (line ++ ['\n']) = line := by
  have reversed : (line ++ ['\n']).reverse = '\n' :: line.reverse := by
    rw [List.reverse_append, List.reverse_singleton, List.singleton_append]
  rw [← List.head?_reverse] at h
  rw [dropLineEnd, reversed]
  split
  · rename_i front same
    rw [(List.cons.inj same).2] at h
    exact absurd rfl h
  · rename_i front _ same
    rw [← (List.cons.inj same).2, List.reverse_reverse]
  · rename_i other
    exact absurd rfl (other line.reverse)

/-- Besides the line feed, at most a carriage return is dropped. -/
theorem dropLineEnd_append_newline_cases (line : List Char) :
    dropLineEnd (line ++ ['\n']) = line ∨ dropLineEnd (line ++ ['\n']) ++ ['\r'] = line := by
  by_cases last : line.getLast? = some '\r'
  · obtain ⟨front, rfl⟩ := List.getLast?_eq_some_iff.mp last
    right
    simp [dropLineEnd]
  · exact .inl (dropLineEnd_append_newline last)

theorem newline_notMem_of_mem_lines {text line : String} (mem : line ∈ Text.lines text) :
    '\n' ∉ line.toList := by
  obtain ⟨run, inText, rfl⟩ := List.mem_map.mp mem
  rw [String.toList_ofList]
  obtain ⟨front, absent, rfl | rfl⟩ := exists_of_mem_lineRuns inText
  · rwa [dropLineEnd_of_notMem absent]
  · obtain eq | eq := dropLineEnd_append_newline_cases front
    · rwa [eq]
    · rw [← eq, List.mem_append, not_or] at absent
      exact absent.1

theorem lines_unlines {lines : List String} (single : ∀ line ∈ lines, '\n' ∉ line.toList)
    (ends : ∀ line ∈ lines, line.toList.getLast? ≠ some '\r') :
    Text.lines (unlines lines) = lines := by
  induction lines with
  | nil => rfl
  | cons line rest ih =>
    rw [List.forall_mem_cons] at single ends
    have whole :
        (unlines (line :: rest)).toList = line.toList ++ '\n' :: (unlines rest).toList := by
      simp [unlines]
    rw [Text.lines, whole, lineRuns_append_newline single.1, List.map_cons,
      dropLineEnd_append_newline ends.1, String.ofList_toList]
    exact congrArg (line :: ·) (ih single.2 ends.2)

end LambdaWorkbench.Text
