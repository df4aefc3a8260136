import Mathlib.Data.List.DropRight
import CipherOcto.Determin.Decimal

/-!
# SQL scripts

A migration's script is cut into statements at its semicolons, in one pass that
drops line comments as it goes.

> `splitSqlStatements_eq`: the pass first drops the comments, then splits at semicolons,
> trims, and drops what is empty.
> `split_script_iff`: bare statements, and no others, survive being written as a script.
-/

namespace CipherOcto.Storage

open CipherOcto.Determin (isWhitespace trimWhitespace)

/-! ## The pass -/

/-- Up to the end of the line: its first LF or CR is consumed. -/
def skipComment : List Char → List Char
  | [] => []
  | nc :: chars => if nc == '\n' || nc == '\r' then chars else skipComment chars

theorem length_skipComment_le (chars : List Char) :
    (skipComment chars).length ≤ chars.length := by
  induction chars with
  | nil => exact Nat.le_refl _
  | cons nc chars ih =>
    unfold skipComment
    split
    · exact Nat.le_succ _
    · exact Nat.le_succ_of_le ih

/-- `str::trim_end_matches(';')`. -/
def trimEndSemicolons (s : List Char) : List Char := (s.reverse.dropWhile (· == ';')).reverse

/-- What a captured statement leaves: `buf` ends in its delimiter. -/
def captured (buf : List Char) : List Char :=
  trimWhitespace (trimEndSemicolons (trimWhitespace buf))

/-- An empty statement is not kept. -/
def keep (out : List (List Char)) (stmt : List Char) : List (List Char) :=
  if stmt.isEmpty then out else out ++ [stmt]

/-- The loop over the characters that are left. -/
def splitLoop (chars buf : List Char) (out : List (List Char)) : List (List Char) :=
  match chars with
  | [] => keep out (trimWhitespace buf)
  | c :: chars =>
    if c == '-' && chars.head? == some '-' then splitLoop (skipComment chars) buf out
    else if c == ';' then splitLoop chars [] (keep out (captured (buf ++ [c])))
    else splitLoop chars (buf ++ [c]) out
termination_by chars.length
decreasing_by
  · exact Nat.lt_succ_of_le (length_skipComment_le chars)
  · exact Nat.lt_succ_self _
  · exact Nat.lt_succ_self _

/-- The statements of a script. -/
def splitSqlStatements (sql : List Char) : List (List Char) := splitLoop sql [] []

/-! ## What it does -/

/-- A script without its comments. -/
def stripComments (chars : List Char) : List Char :=
  match chars with
  | [] => []
  | c :: chars =>
    if c == '-' && chars.head? == some '-' then stripComments (skipComment chars)
    else c :: stripComments chars
termination_by chars.length
decreasing_by
  · exact Nat.lt_succ_of_le (length_skipComment_le chars)
  · exact Nat.lt_succ_self _

/-- The statements among the pieces of a script. -/
def statements (pieces : List (List Char)) : List (List Char) :=
  (pieces.map trimWhitespace).filter fun stmt => !stmt.isEmpty

theorem statements_cons (piece : List Char) (pieces : List (List Char)) :
    statements (piece :: pieces) = keep [] (trimWhitespace piece) ++ statements pieces := by
  unfold statements keep
  rw [List.map_cons, List.filter_cons]
  cases (trimWhitespace piece).isEmpty <;> rfl

theorem keep_eq (out : List (List Char)) (stmt : List Char) : keep out stmt = out ++ keep [] stmt := by
  unfold keep
  split
  · exact (List.append_nil out).symm
  · rfl

/-! ## Trimming -/

theorem trimWhitespace_eq (s : List Char) :
    trimWhitespace s = (s.dropWhile isWhitespace).rdropWhile isWhitespace := rfl

theorem trimWhitespace_infix (s : List Char) : trimWhitespace s <:+: s :=
  (List.rdropWhile_prefix _ _).isInfix.trans (List.dropWhile_suffix _).isInfix

theorem trimWhitespace_dropWhile (s : List Char) :
    trimWhitespace (s.dropWhile isWhitespace) = trimWhitespace s := by
  rw [trimWhitespace_eq, List.dropWhile_idempotent, ← trimWhitespace_eq]

theorem trimWhitespace_cons {c : Char} (hc : isWhitespace c = true) (s : List Char) :
    trimWhitespace (c :: s) = trimWhitespace s := by
  rw [← trimWhitespace_dropWhile (c :: s), List.dropWhile_cons_of_pos hc, trimWhitespace_dropWhile]

/-- A trimmed text starts as the untrimmed one does past its leading whitespace. -/
theorem dropWhile_trimWhitespace (s : List Char) :
    (trimWhitespace s).dropWhile isWhitespace = trimWhitespace s := by
  have hstart : trimWhitespace s <+: s.dropWhile isWhitespace := List.rdropWhile_prefix _ _
  refine List.dropWhile_eq_self_iff.mpr fun hpos => ?_
  rw [hstart.getElem hpos]
  exact List.dropWhile_get_zero_not isWhitespace s (Nat.lt_of_lt_of_le hpos hstart.length_le)

theorem trimWhitespace_idempotent (s : List Char) :
    trimWhitespace (trimWhitespace s) = trimWhitespace s := by
  rw [trimWhitespace_eq (trimWhitespace s), dropWhile_trimWhitespace, trimWhitespace_eq,
    List.rdropWhile_idempotent]

/-- The delimiter at its end is all that a captured statement loses before it is trimmed. -/
theorem captured_concat {buf : List Char} (hbuf : ';' ∉ buf) :
    captured (buf ++ [';']) = trimWhitespace buf := by
  have hdrop : (buf ++ [';']).dropWhile isWhitespace = buf.dropWhile isWhitespace ++ [';'] := by
    rw [List.dropWhile_append]
    split
    next hnil => rw [List.isEmpty_iff.mp hnil]; rfl
    next => rfl
  have htrim : trimWhitespace (buf ++ [';']) = buf.dropWhile isWhitespace ++ [';'] := by
    rw [trimWhitespace_eq, hdrop, List.rdropWhile_concat_neg _ _ _ (by decide)]
  have hend : trimEndSemicolons (buf.dropWhile isWhitespace ++ [';']) =
      buf.dropWhile isWhitespace := by
    show List.rdropWhile (· == ';') _ = _
    rw [List.rdropWhile_concat_pos _ _ _ rfl, List.rdropWhile_eq_self_iff]
    intro hne hlast
    -- the buffer has no delimiter of its own
    exact hbuf ((List.dropWhile_suffix _).subset (beq_iff_eq.mp hlast ▸ List.getLast_mem hne))
  rw [captured, htrim, hend, trimWhitespace_dropWhile]

/-! ## One pass -/

theorem stripComments_cons (c : Char) (chars : List Char) :
    stripComments (c :: chars) =
      if c == '-' && chars.head? == some '-' then stripComments (skipComment chars)
      else c :: stripComments chars := by
  rw [stripComments]

theorem splitLoop_eq (chars buf : List Char) (out : List (List Char)) (hbuf : ';' ∉ buf) :
    splitLoop chars buf out =
      out ++ statements ((buf ++ stripComments chars).splitOn ';') := by
  fun_induction splitLoop chars buf out with
  | case1 buf out =>
    rw [stripComments, List.append_nil, List.splitOn_eq_singleton hbuf, keep_eq, statements_cons]
    exact congrArg _ (List.append_nil _).symm
  | case2 buf out c chars hcomment ih => rw [ih hbuf, stripComments_cons, if_pos hcomment]
  | case3 buf out c chars hcomment hend ih =>
    -- the statement is captured with its delimiter, and the buffer starts anew
    rw [beq_iff_eq] at hend
    subst hend
    rw [ih List.not_mem_nil, List.nil_append, captured_concat hbuf, keep_eq, List.append_assoc,
      ← statements_cons, stripComments_cons, if_neg hcomment,
      List.splitOn_append_cons_self_of_not_mem hbuf]
  | case4 buf out c chars hcomment hend ih =>
    have hnot : ';' ∉ buf ++ [c] := by
      rw [List.mem_append, List.mem_singleton, not_or]
      exact ⟨hbuf, fun h => hend (beq_iff_eq.mpr h.symm)⟩
    rw [ih hnot, stripComments_cons, if_neg hcomment, List.append_assoc, List.singleton_append]

/-- The pass drops the comments, splits at semicolons, trims, and drops what is empty. -/
theorem splitSqlStatements_eq (sql : List Char) :
    splitSqlStatements sql = statements ((stripComments sql).splitOn ';') :=
  splitLoop_eq sql [] [] List.not_mem_nil

/-! ## Bare statements -/

/-- A statement on its own: not empty, trimmed, with neither a delimiter nor a comment. -/
structure Bare (stmt : List Char) : Prop where
  nonempty : stmt ≠ []
  trimmed : trimWhitespace stmt = stmt
  delimiter : ';' ∉ stmt
  comment : ¬['-', '-'] <:+: stmt

/-- A script, each statement on a line of its own. -/
def script (stmts : List (List Char)) : List Char := stmts.flatMap (· ++ [';', '\n'])

theorem not_mem_of_mem_splitOn {a : Char} {s piece : List Char} (h : piece ∈ s.splitOn a) :
    a ∉ piece := by
  induction s generalizing piece with
  | nil =>
    rw [List.splitOn_nil, List.mem_singleton] at h
    exact h ▸ List.not_mem_nil
  | cons c s ih =>
    rw [List.splitOn_cons_eq_if_modifyHead] at h
    split at h
    next =>
      rcases List.mem_cons.mp h with rfl | h
      · exact List.not_mem_nil
      · exact ih h
    next hne =>
      obtain ⟨first, pieces, hsplit⟩ := List.exists_cons_of_ne_nil (List.splitOn_ne_nil a s)
      rw [hsplit] at h ih
      rcases List.mem_cons.mp h with rfl | h
      · rw [List.mem_cons, not_or]
        exact ⟨fun hac => hne (beq_iff_eq.mpr hac.symm), ih List.mem_cons_self⟩
      · exact ih (List.mem_cons_of_mem _ h)

theorem infix_intercalate {a : Char} {piece : List Char} {pieces : List (List Char)}
    (h : piece ∈ pieces) : piece <:+: [a].intercalate pieces := by
  induction pieces with
  | nil => cases h
  | cons first pieces ih =>
    cases pieces with
    | nil =>
      rw [List.mem_singleton.mp h, List.intercalate_singleton]
    | cons second pieces =>
      rw [List.intercalate_cons_cons, List.append_assoc]
      rcases List.mem_cons.mp h with rfl | h
      · exact (List.prefix_append _ _).isInfix
      · exact (ih h).trans ((List.suffix_append _ _).trans (List.suffix_append _ _)).isInfix

theorem infix_of_mem_splitOn {a : Char} {s piece : List Char} (h : piece ∈ s.splitOn a) :
    piece <:+: s := by
  have hpiece := infix_intercalate (a := a) h
  rwa [List.intercalate_splitOn] at hpiece

/-- Where no comment starts, the next character stays next. -/
theorem head?_stripComments {chars : List Char} (h : chars.head? ≠ some '-') :
    (stripComments chars).head? = chars.head? := by
  cases chars with
  | nil => rw [stripComments]
  | cons c chars =>
    rw [stripComments_cons, if_neg, List.head?_cons, List.head?_cons]
    rw [Bool.and_eq_true, beq_iff_eq]
    exact fun hcomment => h (congrArg some hcomment.1)

/-- Dropping the comments leaves none, and makes none. -/
theorem not_infix_stripComments (chars : List Char) : ¬['-', '-'] <:+: stripComments chars := by
  fun_induction stripComments chars with
  | case1 => decide
  | case2 c chars hcomment ih => exact ih
  | case3 c chars hcomment ih =>
    rw [List.infix_cons_iff, not_or]
    refine ⟨fun hstart => ?_, ih⟩
    obtain ⟨rfl, hnext⟩ := List.cons_prefix_cons.mp hstart
    -- two dashes left in a row were in a row before
    have hhead : (stripComments chars).head? = some '-' := by
      obtain ⟨tail, htail⟩ := hnext
      rw [← htail]
      rfl
    refine hcomment ?_
    rw [Bool.and_eq_true, beq_iff_eq, beq_iff_eq]
    refine ⟨rfl, ?_⟩
    by_contra hne
    rw [head?_stripComments hne] at hhead
    exact hne hhead

theorem bare_of_mem {sql stmt : List Char} (h : stmt ∈ splitSqlStatements sql) : Bare stmt := by
  rw [splitSqlStatements_eq, statements, List.mem_filter] at h
  obtain ⟨hmem, hne⟩ := h
  obtain ⟨piece, hpiece, rfl⟩ := List.mem_map.mp hmem
  have hpart := trimWhitespace_infix piece
  exact ⟨by simpa using hne, trimWhitespace_idempotent piece,
    fun hsemi => not_mem_of_mem_splitOn hpiece (hpart.subset hsemi),
    fun hdash => not_infix_stripComments sql
      (hdash.trans (hpart.trans (infix_of_mem_splitOn hpiece)))⟩

/-- A text without comments before a delimiter is kept as it is. -/
theorem stripComments_append {stmt : List Char} (h : ¬['-', '-'] <:+: stmt) (rest : List Char) :
    stripComments (stmt ++ ';' :: rest) = stmt ++ ';' :: stripComments rest := by
  induction stmt with
  | nil => rw [List.nil_append, List.nil_append, stripComments_cons, if_neg (by simp)]
  | cons c stmt ih =>
    rw [List.infix_cons_iff, not_or] at h
    rw [List.cons_append, stripComments_cons, if_neg, ih h.2, List.cons_append]
    rw [Bool.and_eq_true, beq_iff_eq, beq_iff_eq]
    rintro ⟨rfl, hhead⟩
    cases stmt with
    -- a dash before the delimiter starts no comment
    | nil => cases hhead
    | cons d stmt =>
      cases hhead
      exact h.1 ⟨stmt, rfl⟩

/-- The line's end after a delimiter is trimmed away. -/
theorem statements_splitOn_newline (s : List Char) :
    statements (('\n' :: s).splitOn ';') = statements (s.splitOn ';') := by
  obtain ⟨first, pieces, hsplit⟩ := List.exists_cons_of_ne_nil (List.splitOn_ne_nil ';' s)
  rw [List.splitOn_cons_eq_if_modifyHead, if_neg (by decide), hsplit, List.modifyHead_cons,
    statements_cons, statements_cons, trimWhitespace_cons (by decide)]

theorem splitSqlStatements_cons {stmt : List Char} (h : Bare stmt) (rest : List Char) :
    splitSqlStatements (stmt ++ ';' :: '\n' :: rest) = stmt :: splitSqlStatements rest := by
  have hkeep : keep [] stmt = [stmt] := if_neg (by simpa using h.nonempty)
  have hline : stripComments ('\n' :: rest) = '\n' :: stripComments rest := by
    rw [stripComments_cons, if_neg (by simp)]
  rw [splitSqlStatements_eq, stripComments_append h.comment, hline,
    List.splitOn_append_cons_self_of_not_mem h.delimiter, statements_cons, h.trimmed, hkeep,
    statements_splitOn_newline, ← splitSqlStatements_eq]
  rfl

theorem splitSqlStatements_script {stmts : List (List Char)} (h : ∀ stmt ∈ stmts, Bare stmt) :
    splitSqlStatements (script stmts) = stmts := by
  induction stmts with
  | nil => rw [script, List.flatMap_nil, splitSqlStatements, splitLoop]; rfl
  | cons stmt stmts ih =>
    have hscript : script (stmt :: stmts) = stmt ++ ';' :: '\n' :: script stmts := by
      rw [script, List.flatMap_cons, List.append_assoc]
      rfl
    rw [hscript, splitSqlStatements_cons (h stmt List.mem_cons_self),
      ih fun t ht => h t (List.mem_cons_of_mem _ ht)]

/-- **The round trip.** Every statement that a script is cut into is bare, and a list of
statements comes back from the script it is written as iff all of them are. -/
theorem split_script_iff (sql : List Char) (stmts : List (List Char)) :
    (∀ stmt ∈ splitSqlStatements sql, Bare stmt) ∧
      (splitSqlStatements (script stmts) = stmts ↔ ∀ stmt ∈ stmts, Bare stmt) := by
  refine ⟨fun stmt => bare_of_mem, ⟨fun heq stmt hmem => ?_, splitSqlStatements_script⟩⟩
  rw [← heq] at hmem
  exact bare_of_mem hmem

end CipherOcto.Storage
