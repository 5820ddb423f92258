import Mathlib.Data.List.Basic

/-!
`read_file_into_buffer` and `next_line` of `redis_fpga.c`. A buffer is the list of its bytes
(one `Char` each) from the cursor on; `next_line` writes `'\0'` only before the new cursor, so
the list from the new cursor is what the next call reads. The line it returns is the C string
at `start` after those writes.
-/

namespace EnzianMemory.Redis

/-- `strchr(s, ch)` for `ch ≠ '\0'`: the offset of the first `ch` before the terminator. -/
def strchr : List Char → Char → Option ℕ
  | [], _ => none
  | c :: s, ch => if c = ch then some 0 else if c = '\x00' then none else (strchr s ch).map (· + 1)

def strlen : List Char → ℕ
  | [] => 0
  | c :: s => if c = '\x00' then 0 else strlen s + 1

/-- The file as `stat`, `fopen` and `fread` see it. -/
inductive Dataset
  | statFails
  | openFails
  | shortRead (got : ℕ) (content : List Char)
  | bytes (content : List Char)

/-- The error is the line the function prints before it returns `NULL`. -/
def readFileIntoBuffer : Dataset → Except String (List Char)
  | .statFails => .error "stat(dataset) failed"
  | .openFails => .error "Dataset open failed"
  | .shortRead got content =>
    .error ("ERROR: fread got " ++ toString got ++ " bytes, expected " ++
      toString content.length)
  | .bytes content => .ok (content ++ ['\x00'])

/-- `next_line(&cursor)`: the line and the new cursor, or `NULL` at the terminator. -/
def nextLine (cursor : List Char) : Option (List Char × List Char) :=
  match cursor with
  | [] => none
  | c :: _ =>
    if c = '\x00' then none
    else
      match strchr cursor '\n' with
      | some nl =>
        let start := cursor.take nl
        let len := strlen start
        let line :=
          if len ≠ 0 ∧ start[len - 1]? = some '\r' then start.take (len - 1) else start
        some (line, cursor.drop (nl + 1))
      | none => some (cursor.take (strlen cursor), cursor.drop (strlen cursor))

theorem strchr_lt {s : List Char} {ch : Char} {i : ℕ} (h : strchr s ch = some i) :
    i < s.length := by
  induction s generalizing i with
  | nil => cases h
  | cons c s ih =>
    simp only [strchr] at h
    split_ifs at h
    · cases h; simp
    · obtain ⟨j, hj, rfl⟩ := Option.map_eq_some'.1 h
      simpa using ih hj

theorem strlen_pos {c : Char} {s : List Char} (hc : c ≠ '\x00') : 0 < strlen (c :: s) := by
  simp [strlen, hc]

theorem strlen_le (s : List Char) : strlen s ≤ s.length := by
  induction s with
  | nil => exact le_rfl
  | cons c s ih => simp only [strlen]; split_ifs <;> simp [ih]

theorem nextLine_length_lt {cursor line rest : List Char}
    (h : nextLine cursor = some (line, rest)) : rest.length < cursor.length := by
  match cursor, h with
  | c :: s, h =>
    simp only [nextLine] at h
    split_ifs at h with hc
    split at h
    · next nl hnl =>
      cases h
      have := strchr_lt hnl
      simp only [List.length_drop]
      omega
    · cases h
      have := strlen_pos (s := s) hc
      have := strlen_le (c :: s)
      simp only [List.length_drop]
      omega

/-- The line loop `while ((line = next_line(&cursor)) != NULL)`, as the lines it sees. -/
def nextLines (cursor : List Char) : List (List Char) :=
  match _hc : nextLine cursor with
  | none => []
  | some (line, rest) => line :: nextLines rest
termination_by cursor.length
decreasing_by exact nextLine_length_lt _hc

theorem nextLines_of_none {cursor : List Char} (h : nextLine cursor = none) :
    nextLines cursor = [] := by
  rw [nextLines]; split <;> simp_all

theorem nextLines_of_some {cursor line rest : List Char} (h : nextLine cursor = some (line, rest)) :
    nextLines cursor = line :: nextLines rest := by
  rw [nextLines]; split <;> simp_all

theorem nextLines_eq_cons {cursor line : List Char} {lines : List (List Char)} :
    nextLines cursor = line :: lines ↔ ∃ rest, nextLine cursor = some (line, rest) ∧
      nextLines rest = lines := by
  constructor
  · intro h
    rcases hc : nextLine cursor with _ | ⟨l, rest⟩
    · rw [nextLines_of_none hc] at h; cases h
    · rw [nextLines_of_some hc, List.cons.injEq] at h
      exact ⟨rest, h.1 ▸ rfl, h.2⟩
  · rintro ⟨rest, h, rfl⟩
    exact nextLines_of_some h

/-- One trailing `'\r'` removed. -/
def trimCR (l : List Char) : List Char :=
  if l.getLast? = some '\r' then l.dropLast else l

/-- The pieces of `content` split at `'\n'`, each with one trailing `'\r'` removed, with no
final empty piece. -/
def linePieces (content : List Char) : List (List Char) :=
  let pieces := content.splitOn '\n'
  (if pieces.getLast? = some [] then pieces.dropLast else pieces).map trimCR

section Buffer

variable {a l : List Char}

theorem strchr_append_cons (ha : '\x00' ∉ a) (hn : '\n' ∉ a) (b : List Char) :
    strchr (a ++ '\n' :: b) '\n' = some a.length := by
  induction a with
  | nil => simp [strchr]
  | cons c a ih =>
    simp only [List.mem_cons, not_or] at ha hn
    simp [strchr, Ne.symm hn.1, Ne.symm ha.1, ih ha.2 hn.2]

theorem strchr_append_nul (hl : '\x00' ∉ l) (hn : '\n' ∉ l) (t : List Char) :
    strchr (l ++ '\x00' :: t) '\n' = none := by
  induction l with
  | nil => simp [strchr]
  | cons c l ih =>
    simp only [List.mem_cons, not_or] at hl hn
    simp [strchr, Ne.symm hn.1, Ne.symm hl.1, ih hl.2 hn.2]

theorem strlen_append (hl : '\x00' ∉ l) (s : List Char) :
    strlen (l ++ s) = l.length + strlen s := by
  induction l with
  | nil => simp
  | cons c l ih =>
    simp only [List.mem_cons, not_or] at hl
    simp [strlen, Ne.symm hl.1, ih hl.2]
    omega

theorem strlen_append_nul (hl : '\x00' ∉ l) (t : List Char) :
    strlen (l ++ '\x00' :: t) = l.length := by
  simp [strlen_append hl, strlen]

theorem strlen_of_not_mem (hl : '\x00' ∉ l) : strlen l = l.length := by
  simpa [strlen] using strlen_append hl []

theorem trimCR_eq (a : List Char) :
    (if a.length ≠ 0 ∧ a[a.length - 1]? = some '\r' then a.take (a.length - 1) else a) =
      trimCR a := by
  rcases List.eq_nil_or_concat a with rfl | ⟨b, c, rfl⟩
  · rfl
  · simp [trimCR]

theorem exists_first_split {x : Char} (h : x ∈ l) : ∃ a b, l = a ++ x :: b ∧ x ∉ a := by
  induction l with
  | nil => cases h
  | cons c l ih =>
    by_cases hc : c = x
    · exact ⟨[], l, by rw [hc]; rfl, List.not_mem_nil x⟩
    · obtain ⟨a, b, rfl, hx⟩ := ih ((List.mem_cons.1 h).resolve_left (Ne.symm hc))
      exact ⟨c :: a, b, rfl, by simp [Ne.symm hc, hx]⟩

theorem nextLine_newline (ha : '\x00' ∉ a) (hn : '\n' ∉ a) (b : List Char) :
    nextLine (a ++ '\n' :: b) = some (trimCR a, b) := by
  have hs := strchr_append_cons ha hn b
  rcases a with _ | ⟨d, a⟩
  · simp [nextLine, strchr, trimCR]
  · have hd : d ≠ '\x00' := fun h => ha (h ▸ List.mem_cons_self d a)
    rw [List.cons_append] at hs ⊢
    simp only [nextLine, hd, if_false, hs]
    rw [← List.cons_append, List.take_left, strlen_of_not_mem ha, trimCR_eq]
    simp

theorem nextLine_last (hl : '\x00' ∉ l) (hn : '\n' ∉ l) (hne : l ≠ []) (t : List Char) :
    nextLine (l ++ '\x00' :: t) = some (l, '\x00' :: t) := by
  obtain ⟨c, s, rfl⟩ := List.exists_cons_of_ne_nil hne
  have hc : c ≠ '\x00' := fun h => hl (h ▸ List.mem_cons_self c s)
  have hs := strchr_append_nul hl hn t
  have hlen := strlen_append_nul hl t
  rw [List.cons_append] at hs hlen ⊢
  simp only [nextLine, hc, if_false, hs, hlen]
  rw [← List.cons_append, List.take_left, List.drop_left]

theorem nextLine_nul (t : List Char) : nextLine ('\x00' :: t) = none := by
  simp [nextLine]

theorem linePieces_newline (hn : '\n' ∉ a) (b : List Char) :
    linePieces (a ++ '\n' :: b) = trimCR a :: linePieces b := by
  have hsplit : (a ++ '\n' :: b).splitOn '\n' = a :: b.splitOn '\n' :=
    List.splitOnP_first _ _ (fun x hx => by simpa using ne_of_mem_of_not_mem hx hn) _ (by simp) _
  obtain ⟨p, ps, hps⟩ := List.exists_cons_of_ne_nil (List.splitOnP_ne_nil (· == '\n') b)
  simp only [linePieces, hsplit]
  rw [show List.splitOn '\n' b = p :: ps from hps, List.getLast?_cons_cons, List.dropLast_cons₂]
  split_ifs <;> rfl

theorem linePieces_last (hn : '\n' ∉ l) (hne : l ≠ []) : linePieces l = [trimCR l] := by
  have hsplit : l.splitOn '\n' = [l] :=
    List.splitOnP_eq_single _ _ fun x hx => by simpa using ne_of_mem_of_not_mem hx hn
  simp [linePieces, hsplit, hne]

theorem nextLines_append_nul (hl : '\x00' ∉ l) (hr : l.getLast? ≠ some '\r') (t : List Char) :
    nextLines (l ++ '\x00' :: t) = linePieces l := by
  obtain ⟨n, hlen⟩ : ∃ n, l.length = n := ⟨_, rfl⟩
  induction n using Nat.strong_induction_on generalizing l with
  | _ n ih =>
    by_cases hnl : '\n' ∈ l
    · obtain ⟨a, b, rfl, hn⟩ := exists_first_split hnl
      have hb : '\x00' ∉ b := fun h => hl (by simp [h])
      have hbr : b.getLast? ≠ some '\r' := by
        rcases b with _ | ⟨x, y⟩
        · simp
        · rwa [List.getLast?_append_of_ne_nil _ (List.cons_ne_nil _ _), List.getLast?_cons_cons]
            at hr
      rw [List.append_assoc, List.cons_append, nextLines_of_some
        (nextLine_newline (fun h => hl (by simp [h])) hn _), linePieces_newline hn,
        ih b.length (by simp [← hlen]; omega) hb hbr rfl]
    · rcases List.eq_nil_or_concat l with rfl | ⟨k, c, hk⟩
      · exact nextLines_of_none (nextLine_nul t)
      · have hne : l ≠ [] := by simp [hk]
        rw [nextLines_of_some (nextLine_last hl hnl hne t), nextLines_of_none (nextLine_nul t),
          linePieces_last hnl hne, trimCR, if_neg hr]

theorem nextLines_append_nul_eq (hl : '\x00' ∉ l) (t t' : List Char) :
    nextLines (l ++ '\x00' :: t) = nextLines (l ++ '\x00' :: t') := by
  obtain ⟨n, hlen⟩ : ∃ n, l.length = n := ⟨_, rfl⟩
  induction n using Nat.strong_induction_on generalizing l with
  | _ n ih =>
    by_cases hnl : '\n' ∈ l
    · obtain ⟨a, b, rfl, hn⟩ := exists_first_split hnl
      have ha : '\x00' ∉ a := fun h => hl (by simp [h])
      simp only [List.append_assoc, List.cons_append]
      rw [nextLines_of_some (nextLine_newline ha hn _),
        nextLines_of_some (nextLine_newline ha hn _),
        ih b.length (by simp [← hlen]; omega) (fun h => hl (by simp [h])) rfl]
    · by_cases hne : l = []
      · subst hne
        rw [List.nil_append, List.nil_append, nextLines_of_none (nextLine_nul t),
          nextLines_of_none (nextLine_nul t')]
      · rw [nextLines_of_some (nextLine_last hl hnl hne t), nextLines_of_some
          (nextLine_last hl hnl hne t'), nextLines_of_none (nextLine_nul t),
          nextLines_of_none (nextLine_nul t')]

end Buffer

theorem next_line_pieces (content : List Char) :
    ('\x00' ∉ content → content.getLast? ≠ some '\r' →
      (readFileIntoBuffer (.bytes content)).map nextLines = .ok (linePieces content)) ∧
    (readFileIntoBuffer (.bytes content)).map nextLines =
      (readFileIntoBuffer (.bytes (content.takeWhile (· ≠ '\x00')))).map nextLines ∧
    ∀ cursor line rest, nextLine cursor = some (line, rest) → rest.length < cursor.length := by
  refine ⟨fun hl hr => congrArg Except.ok (nextLines_append_nul hl hr []), ?_,
    fun _ _ _ => nextLine_length_lt⟩
  show Except.ok _ = Except.ok _
  congr 1
  by_cases hz : '\x00' ∈ content
  · obtain ⟨a, b, rfl, ha⟩ := exists_first_split hz
    have hpos : ∀ x ∈ a, decide (x ≠ '\x00') = true := fun x hx => by
      simpa using ne_of_mem_of_not_mem hx ha
    rw [List.takeWhile_append_of_pos hpos, List.takeWhile_cons_of_neg (by simp), List.append_nil,
      List.append_assoc, List.cons_append, nextLines_append_nul_eq ha _ []]
  · rw [List.takeWhile_eq_self_iff.2 fun x hx => by simpa using ne_of_mem_of_not_mem hx hz]

theorem next_line_pieces_crlf :
    (readFileIntoBuffer (.bytes ['a', '\r', '\n', 'b', '\n'])).map nextLines =
      .ok [['a'], ['b']] := by
  rw [(next_line_pieces _).1 (by decide) (by decide)]
  rfl

theorem next_line_nul_or_last_cr :
    (readFileIntoBuffer (.bytes ['a', '\x00', 'b'])).map nextLines ≠
        .ok (linePieces ['a', '\x00', 'b']) ∧
      (readFileIntoBuffer (.bytes ['a', '\r'])).map nextLines ≠ .ok (linePieces ['a', '\r']) := by
  have h1 : (readFileIntoBuffer (.bytes ['a', '\x00', 'b'])).map nextLines = .ok [['a']] :=
    congrArg Except.ok <| by
      rw [show ['a', '\x00', 'b'] ++ ['\x00'] = ['a'] ++ '\x00' :: ['b', '\x00'] from rfl,
        nextLines_append_nul_eq (by decide) _ [], nextLines_append_nul (by decide) (by decide)]
      rfl
  have h2 : (readFileIntoBuffer (.bytes ['a', '\r'])).map nextLines = .ok [['a', '\r']] :=
    congrArg Except.ok <| by
      rw [nextLines_of_some (nextLine_last (by decide) (by decide) (by decide) []),
        nextLines_of_none (nextLine_nul [])]
  rw [h1, h2]
  exact ⟨fun h => absurd (Except.ok.inj h) (by decide),
    fun h => absurd (Except.ok.inj h) (by decide)⟩

theorem not_mem_of_mem_splitOnP {p : Char → Bool} {c : Char} :
    ∀ {xs q : List Char}, c ∉ xs → q ∈ xs.splitOnP p → c ∉ q
  | [], q, _, hq => by
    rw [List.splitOnP_nil, List.mem_singleton] at hq
    subst hq
    exact List.not_mem_nil c
  | y :: ys, q, hc, hq => by
    have hc' : c ∉ ys := fun h => hc (List.mem_cons_of_mem _ h)
    rw [List.splitOnP_cons] at hq
    obtain ⟨r, rs, hrs⟩ := List.exists_cons_of_ne_nil (List.splitOnP_ne_nil p ys)
    split_ifs at hq
    · rcases List.mem_cons.1 hq with rfl | hq
      exacts [List.not_mem_nil c, not_mem_of_mem_splitOnP hc' hq]
    · rw [hrs, List.modifyHead_cons] at hq
      rcases List.mem_cons.1 hq with rfl | hq
      · rw [List.mem_cons, not_or]
        exact ⟨fun h => hc (h ▸ List.mem_cons_self _ _),
          not_mem_of_mem_splitOnP hc' (hrs ▸ List.mem_cons_self _ _)⟩
      · exact not_mem_of_mem_splitOnP hc' (hrs ▸ List.mem_cons_of_mem _ hq)

theorem not_mem_of_mem_linePieces {c : Char} {content p : List Char} (hc : c ∉ content)
    (hp : p ∈ linePieces content) : c ∉ p := by
  obtain ⟨q, hq, rfl⟩ := List.mem_map.1 hp
  have hq' : q ∈ content.splitOn '\n' := by
    split_ifs at hq
    exacts [List.dropLast_subset _ hq, hq]
  have := not_mem_of_mem_splitOnP hc hq'
  unfold trimCR
  split_ifs
  exacts [fun h => this (List.dropLast_subset _ h), this]

end EnzianMemory.Redis
