import Bisaya.Proofs.Parse.Lockstep
import Bisaya.Proofs.Parse.Outcome
import Bisaya.Proofs.Parse.Seam
import Bisaya.Proofs.Run.Play

namespace Bisaya

namespace Parse

/-- How statements are read: the frame is closed, or one statement stands in front of more. -/
theorem stmts_cons_cases {k : ℕ} {frame : Frame} {t : Token} {ts : List Token} :
    Ensures (stmts (k + 1) frame (t :: ts)) fun p rest =>
      (t.kind = frame.close ∧ p = [] ∧ rest = ts) ∨
        (t.kind ≠ frame.close ∧ frame.unclosed? t = none ∧ ∃ x mid more,
          stmt (stmts k) t ts = .ok (x, mid) ∧ stmts k frame mid = .ok (more, rest) ∧
          p = x :: more) := by
  rw [stmts]
  split
  · rename_i hclose
    exact .ok (.inl ⟨hclose, rfl, rfl⟩)
  · rename_i hclose
    split
    · exact .error _
    · rename_i hopen
      refine Ensures.bind (fun _ _ h => h) fun x mid hstmt => ?_
      refine Ensures.bind (fun _ _ h => h) fun more rest hmore => .ok ?_
      exact .inr ⟨hclose, hopen, x, mid, more, hstmt, hmore, rfl⟩

theorem stmts_edge {k : ℕ} {t : Token} {ts rest : List Token} {p : List Stmt}
    (h : stmts k .program (t :: ts) = .ok (p, rest)) :
    t.kind ∈ edgeKinds ∧ ¬ Continues (t :: ts) := by
  cases k with
  | zero => cases h
  | succ k =>
    rcases stmts_cons_cases _ _ h with ⟨hclose, -⟩ | ⟨-, -, x, mid, more, hstmt, -⟩
    · have hkind : t.kind = .keyword .katapusan := hclose
      rw [hkind]
      exact ⟨by decide, not_continues_of_kind (by rw [hkind]; decide) ts⟩
    · revert hstmt
      fun_cases stmt (stmts k) t ts with
      | case4 hkind =>
        intro hstmt
        rw [hkind]
        refine ⟨by decide, ?_⟩
        rintro ⟨k', u, more, heq, -, hword⟩
        obtain ⟨rfl, rfl⟩ := List.cons.inj heq
        rw [conditional, if_pos hword] at hstmt
        cases hstmt
      | case1 hkind | case2 hkind | case3 hkind | case5 hkind | case6 hkind =>
        intro _
        rw [hkind]
        exact ⟨by decide, not_continues_of_kind (by rw [hkind]; decide) ts⟩
      | case7 => rintro ⟨⟩

/-- The tokens up to the first one that no statement holds. -/
theorem append_inj_of_held {xs ys as bs : List Token} {t u : Token} (hxs : Held xs) (hys : Held ys)
    (ht : t.kind ∈ foreignKinds) (hu : u.kind ∈ foreignKinds) (h : xs ++ t :: as = ys ++ u :: bs) :
    xs = ys ∧ t = u ∧ as = bs := by
  induction xs generalizing ys with
  | nil =>
    cases ys with
    | nil => exact ⟨rfl, List.cons.inj h⟩
    | cons y ys => exact absurd ((List.cons.inj h).1 ▸ ht) (hys y (List.mem_cons_self ..))
  | cons x xs ih =>
    cases ys with
    | nil => exact absurd ((List.cons.inj h).1 ▸ hu) (hxs x (List.mem_cons_self ..))
    | cons y ys =>
      obtain ⟨rfl, hmore⟩ := List.cons.inj h
      obtain ⟨rfl, hrest⟩ := ih (List.forall_mem_cons.1 hxs).2 (List.forall_mem_cons.1 hys).2 hmore
      exact ⟨rfl, hrest⟩

theorem rest_of_stmts {body rest : List Token} {close last : Token} {p : List Stmt} {k : ℕ}
    (hbody : Held body) (hclose : close.kind = .keyword .katapusan) (hlast : last.kind = .eof)
    (hk : (body ++ [close, last]).length ≤ k)
    (hread : stmts k .program (body ++ [close, last]) = .ok (p, rest)) : rest = [last] := by
  have hterminated : Terminated (body ++ [close, last]) := ⟨last, by simp, hlast⟩
  have hframe := stmts_outcome k .program _ hterminated hk
  rw [hread] at hframe
  cases hframe with
  | @closed _ lines _ close' hsplit hlines hclose' =>
    have hforeign : close.kind ∈ foreignKinds ∧ close'.kind ∈ foreignKinds := by
      rw [hclose, hclose']
      decide
    obtain ⟨-, -, h⟩ := append_inj_of_held hbody hlines.tidy.held hforeign.1 hforeign.2 hsplit
    exact h.symm

/-- The same token, moved by as many lines as lie between `l` and `l'`. -/
structure Moved (l l' : ℕ) (t t' : Token) : Prop where
  kind : t'.kind = t.kind
  literal : t'.literal = t.literal
  line : t'.position.line + l = t.position.line + l'

theorem Moved.getElem? {l l' : ℕ} {ts ts' : List Token} (h : ts.Forall₂ (Moved l l') ts') (k : ℕ) :
    (ts[k]? = none ∧ ts'[k]? = none) ∨
      ∃ t t', ts[k]? = some t ∧ ts'[k]? = some t' ∧ Moved l l' t t' := by
  induction h generalizing k with
  | nil => exact .inl ⟨rfl, rfl⟩
  | cons ht _ ih =>
    cases k with
    | zero => exact .inr ⟨_, _, rfl, rfl, ht⟩
    | succ k => exact ih k

theorem alike_moved {l l' : ℕ} {ts ts' : List Token} (h : ts.Forall₂ (Moved l l') ts') :
    Alike ts ts' where
  seen k := by
    obtain ⟨hnone, hnone'⟩ | ⟨t, t', ht, ht', hmoved⟩ := Moved.getElem? h k
    · rw [hnone, hnone']
    · simp only [ht, ht', Option.map_some, Token.seen, hmoved.kind, hmoved.literal]
  line k := by
    intro t t' next next' _ ht ht' hnext hnext'
    obtain ⟨hnone, -⟩ | ⟨_, _, hsome, hsome', hmoved⟩ := Moved.getElem? h k
    · rw [ht] at hnone
      cases hnone
    obtain ⟨hnone, -⟩ | ⟨_, _, hsome₁, hsome₁', hmoved₁⟩ := Moved.getElem? h (k + 1)
    · rw [hnext] at hnone
      cases hnone
    rw [ht, ht', hnext, hnext'] at *
    cases hsome
    cases hsome'
    cases hsome₁
    cases hsome₁'
    have hline := hmoved.line
    have hline₁ := hmoved₁.line
    omega

theorem moved_down (k : ℕ) (ts : List Token) : ts.Forall₂ (Moved 0 k) (ts.map (Token.down k)) := by
  rw [List.forall₂_map_right_iff]
  exact List.forall₂_same.2 fun t _ => ⟨rfl, rfl, rfl⟩

def Ended (rest : List Token) : Prop := ∃ t ∈ rest.head?, t.kind = .eof

theorem walk_stmts {ts rest : List Token} {i m n : ℕ} {p : List Stmt} (hm : ts.length - i ≤ m)
    (hn : ts.length - i < n) (h : stmts m .program (ts.drop i) = .ok (p, rest)) :
    ∃ j, (Reader.stmts n .program).walk ts i = some (.ok (bodyTree p), j) ∧ rest = ts.drop j := by
  have hends := Reader.stmts_ends .program hn hm
  rw [h] at hends
  exact hends.of_ok

theorem stmts_of_walk {ts : List Token} {i j m n : ℕ} {p : List Stmt} (hm : ts.length - i ≤ m)
    (hn : ts.length - i < n)
    (h : (Reader.stmts n .program).walk ts i = some (.ok (bodyTree p), j)) :
    stmts m .program (ts.drop i) = .ok (p, ts.drop j) :=
  (Reader.stmts_ends .program hn hm).eq_ok bodyTree_injective h

theorem stmts_moved {k l l' : ℕ} {ts ts' rest : List Token} {q : List Stmt} (hk : ts.length ≤ k)
    (h : stmts k .program ts = .ok (q, rest)) (hend : Ended rest)
    (hmoved : ts.Forall₂ (Moved l l') ts') {k' : ℕ} (hk' : ts'.length ≤ k') :
    ∃ rest', stmts k' .program ts' = .ok (q, rest') ∧ Ended rest' := by
  have hlength := hmoved.length_eq
  have hsteps := (Reader.stmts (ts.length + 1) .program).walk_alike (alike_moved hmoved) 0
  obtain ⟨j, hwalk, rfl⟩ := walk_stmts (i := 0) (n := ts.length + 1) hk (by omega) h
  have hwalk' : (Reader.stmts (ts.length + 1) .program).walk ts' 0 =
      some (.ok (bodyTree q), j) := by
    rw [hwalk] at hsteps
    generalize (Reader.stmts (ts.length + 1) .program).walk ts' 0 = x at hsteps
    cases hsteps
    rfl
  refine ⟨ts'.drop j, stmts_of_walk (i := 0) hk' (by omega) hwalk', ?_⟩
  obtain ⟨t, ht, heof⟩ := hend
  rw [List.head?_drop] at ht
  obtain ⟨hnone, -⟩ | ⟨t, t', hsome, hsome', hpair⟩ := Moved.getElem? hmoved j
  · rw [hnone] at ht
    cases ht
  · rw [hsome] at ht
    cases ht
    exact ⟨t', by rw [List.head?_drop, hsome']; rfl, hpair.kind.trans heof⟩

theorem standsAlone_of_line {t u : Token} (h : t.position.line < u.position.line)
    (ts : List Token) : standsAlone t (u :: ts) = true := by
  simp [standsAlone, isBare, h]

theorem bare_holds_append {body ts : List Token}
    (h : ∀ t ∈ body.getLast?, t.kind = .keyword .dili → standsAlone t ts = true) :
    Look.bare.holds (body ++ ts) body.length =
      body.getLast?.any fun t => t.kind = .keyword .dili := by
  rcases List.eq_nil_or_concat body with rfl | ⟨front, t, rfl⟩
  · rfl
  · rw [List.concat_eq_append] at h ⊢
    have hlast : (front ++ [t]).getLast? = some t := List.getLast?_concat ..
    have hsome : (front ++ [t] ++ ts)[front.length]? = some t := by simp
    have hdrop : (front ++ [t] ++ ts).drop (front.length + 1) = ts :=
      List.drop_left' (by simp)
    rw [List.length_append, List.length_singleton, Look.holds, hsome, hlast, hdrop,
      Option.any_some, Option.any_some]
    by_cases hkind : t.kind = .keyword .dili
    · rw [h t hlast hkind, Bool.and_true]
    · simp only [decide_eq_false hkind, Bool.false_and]

theorem seam_append {close u : Token} (last : Token) (body more : List Token)
    (hclose : close.kind = .keyword .katapusan) (hedge : u.kind ∈ edgeKinds) :
    Seam (body ++ [close, last]) (body ++ u :: more) body.length where
  same k hk := by rw [List.getElem?_append_left hk, List.getElem?_append_left hk]
  close := ⟨close, by simp, hclose⟩
  edge := ⟨u, by simp, hedge⟩

theorem holds_append {close last u : Token} {body more : List Token}
    (hclose : close.kind = .keyword .katapusan) (hedge : u.kind ∈ edgeKinds)
    (hnew : ¬ Continues (u :: more))
    (hdili : ∀ t ∈ body.getLast?, t.kind = .keyword .dili → standsAlone t (u :: more) = true)
    (q : Look) (hq : q.Steady) (k : ℕ) (hk : k ≤ body.length) :
    q.holds (body ++ u :: more) k = q.holds (body ++ [close, last]) k := by
  have hbare : Look.bare.holds (body ++ u :: more) body.length =
      Look.bare.holds (body ++ [close, last]) body.length := by
    rw [bare_holds_append hdili, bare_holds_append fun t _ _ => ?_]
    simp [standsAlone, isBare, hclose, startsOperand]
  refine (seam_append last body more hclose hedge).holds_of_steady ?_ hbare hq hk
  rwa [List.drop_left]

theorem succ_eq_length {ts : List Token} {last : Token} {j : ℕ} (h : [last] = ts.drop j) :
    j + 1 = ts.length := by
  have hlength := congrArg List.length h
  simp at hlength
  omega

/-- The statements of a program are read in front of others just as well, if these leave a `DILI` in
front of them alone. -/
theorem stmts_join {close last : Token} {body ts rest : List Token} {p q : List Stmt} {k k' : ℕ}
    (hbody : Held body) (hclose : close.kind = .keyword .katapusan) (hlast : last.kind = .eof)
    (hk : (body ++ [close, last]).length ≤ k)
    (hp : ∃ rest, stmts k .program (body ++ [close, last]) = .ok (p, rest))
    (hq : stmts ts.length .program ts = .ok (q, rest))
    (hdili : ∀ t ∈ body.getLast?, t.kind = .keyword .dili → standsAlone t ts = true)
    (hk' : (body ++ ts).length ≤ k') :
    stmts k' .program (body ++ ts) = .ok (p ++ q, rest) := by
  obtain ⟨_, hp⟩ := hp
  rw [rest_of_stmts hbody hclose hlast hk hp] at hp
  obtain ⟨u, more, rfl⟩ : ∃ u more, ts = u :: more := by
    refine List.exists_cons_of_ne_nil ?_
    rintro rfl
    cases hq
  obtain ⟨hedge, hnew⟩ := stmts_edge hq
  -- one bound for both walks, as the reader is the same
  obtain ⟨n, hn, hn'⟩ : ∃ n, (body ++ [close, last]).length < n ∧ (body ++ u :: more).length < n :=
    ⟨_, Nat.lt_succ_of_le (Nat.le_add_right ..), Nat.lt_succ_of_le (Nat.le_add_left ..)⟩
  obtain ⟨j, hwalk, hdrop⟩ := walk_stmts (i := 0) (n := n) hk (by omega) hp
  obtain rfl : j = body.length + 1 := by
    have hlength := succ_eq_length hdrop
    simp at hlength
    omega
  have hrest (m : ℕ) (hm : (body ++ u :: more).length - body.length < m) :
      ∃ j, (Reader.stmts m .program).walk (body ++ u :: more) body.length =
        some (.ok (bodyTree q), j) ∧ rest = (body ++ u :: more).drop j := by
    refine walk_stmts (m := (u :: more).length) (by simp) hm ?_
    rwa [List.drop_left]
  obtain ⟨j, hwalk', rfl⟩ := Reader.stmts_seam (seam_append last body more hclose hedge)
    (holds_append hclose hedge hnew hdili) (by omega) hwalk hrest
  refine stmts_of_walk (i := 0) (n := n) hk' (by omega) ?_
  rw [hwalk', bodyTree_eq_map, bodyTree_eq_map, bodyTree_eq_map, List.map_append]

/-- The statements of one program are followed by those of another, wherever these are moved to, if
a `DILI` in front of them still stands alone. -/
theorem program_join {start close last : Token} {body ts ts' : List Token} {p q : Program}
    {l l' : ℕ} (hbody : ∀ t ∈ body, t.kind ∉ foreignKinds)
    (hclose : close.kind = .keyword .katapusan) (hlast : last.kind = .eof)
    (hp : program (start :: (body ++ [close, last])) = .ok p) (hq : program (start :: ts) = .ok q)
    (hmoved : ts.Forall₂ (Moved l l') ts')
    (hdili : ∀ t ∈ body.getLast?, t.kind = .keyword .dili → standsAlone t ts' = true) :
    program (start :: (body ++ ts')) = .ok (p ++ q) := by
  obtain ⟨_, _, _, more, ⟨⟩, hstart, hread, -⟩ := program_ok hp
  obtain ⟨_, _, last', more', ⟨⟩, -, hread', hlast'⟩ := program_ok hq
  obtain ⟨rest, hmore, t, ht, heof⟩ :=
    stmts_moved le_rfl hread' ⟨last', rfl, hlast'⟩ hmoved le_rfl
  obtain ⟨rest, rfl⟩ := List.head?_eq_some_iff.1 ht
  exact program_eq hstart (stmts_join hbody hclose hlast le_rfl ⟨_, hread⟩ hmore hdili le_rfl) heof

/-- The statements of one program are followed by those of another, which stand on later lines. -/
theorem program_append {start close last : Token} {body ts : List Token} {p q : Program} {k : ℕ}
    (hbody : ∀ t ∈ body, t.kind ∉ foreignKinds) (hclose : close.kind = .keyword .katapusan)
    (hlast : last.kind = .eof) (hp : program (start :: (body ++ [close, last])) = .ok p)
    (hq : program (start :: ts) = .ok q)
    (hlater : ∀ t ∈ body, ∀ u ∈ ts.map (Token.down k), t.position.line < u.position.line) :
    program (start :: (body ++ ts.map (Token.down k))) = .ok (p ++ q) := by
  refine program_join hbody hclose hlast hp hq (moved_down k ts) fun t ht _ => ?_
  cases ts with
  | nil =>
    obtain ⟨_, _, _, _, ⟨⟩, -, hread, -⟩ := program_ok hq
    cases hread
  | cons u ts =>
    exact standsAlone_of_line (hlater t (List.mem_of_getLast? ht) _ (List.mem_cons_self ..)) _

end Parse

open Parse Piece

/-- A text that is read has `SUGOD` in front and `KATAPUSAN` at the end, and no token in between
that no statement holds. -/
theorem tokens_shape {cs : List Char} {p : Program}
    (h : program (tokens .start (cut false cs)) = .ok p) :
    ∃ start body close last, tokens .start (cut false cs) = start :: (body ++ [close, last]) ∧
      start.kind = .keyword .sugod ∧ close.kind = .keyword .katapusan ∧ last.kind = .eof ∧
      ∀ t ∈ body, t.kind ∉ foreignKinds := by
  obtain ⟨start, body, close, last, more, htokens, hstart, hbody, hclose, hlast⟩ :=
    program_phrase (terminated_tokens .start cs) h
  have hsplit : tokens .start (cut false cs) = (start :: (body ++ [close])) ++ last :: more := by
    simp [htokens]
  obtain rfl := eq_nil_of_eof hsplit hlast
  exact ⟨start, body, close, last, htokens, hstart, hclose, hlast, hbody.tidy.held⟩

/-- A program that is read holds no token that stands in no program. -/
theorem kind_of_program {cs text : List Char} {kind : Kind} {p : Program}
    (h : program (tokens .start (cut false cs)) = .ok p)
    (hpiece : lexeme kind text ∈ cut false cs) :
    kind ∉ [.illegal, .mark .lbracket, .mark .rbracket] := by
  obtain ⟨t, ht, rfl, -⟩ := exists_mem_tokens hpiece .start
  obtain ⟨start, body, close, last, htokens, hstart, hclose, hlast, hbody⟩ := tokens_shape h
  rw [htokens, List.mem_cons, List.mem_append, List.mem_pair] at ht
  rcases ht with rfl | ht | rfl | rfl
  · rw [hstart]
    decide
  · intro hstray
    have hforeign : ∀ kind ∈ [Kind.illegal, .mark .lbracket, .mark .rbracket],
        kind ∈ foreignKinds := by decide
    exact hbody t ht (hforeign _ hstray)
  · rw [hclose]
    decide
  · rw [hlast]
    decide

def enclosed (lines : List Char) : List Char :=
  Keyword.sugod.text.toList ++ '\n' :: (lines ++ '\n' :: Keyword.katapusan.text.toList)

theorem cut_enclosed (lines : List Char) :
    cut false (enclosed lines) = ofKeyword .sugod :: blank '\n' ::
      cut false (lines ++ '\n' :: Keyword.katapusan.text.toList) := by
  rw [enclosed, cut_keyword_cons .sugod (by decide) (by decide), cut_newline]

theorem cut_katapusan : cut false Keyword.katapusan.text.toList = [ofKeyword .katapusan] := by
  have hstops : StopsAt inWord [] := by rintro c ⟨⟩
  have h := cut_keyword .katapusan hstops false
  rwa [List.append_nil, cut] at h

/-- The pieces of lines and of the `KATAPUSAN` below them. -/
def closing (lines : List Char) : List Piece :=
  cut false lines ++ [blank '\n', ofKeyword .katapusan]

variable {a b lines : List Char} {p q : Program}

/-- No quote stays open in the lines of a program. -/
theorem closed_of_program (h : program (tokens .start (cut false (enclosed lines))) = .ok p) :
    ∀ piece ∈ cut false lines, ¬ piece.IsUnclosed := by
  intro piece hmem hopen
  have hmore : ∀ c ∈ Keyword.katapusan.text.toList, ¬ IsQuote c := by
    simp [Keyword.text, IsQuote]
  obtain ⟨text, hillegal⟩ := exists_illegal_of_unclosed hmem hopen hmore
  have hpiece : lexeme .illegal text ∈ cut false (enclosed lines) := by
    rw [cut_enclosed]
    exact List.mem_cons_of_mem _ (List.mem_cons_of_mem _ hillegal)
  exact absurd (by decide) (kind_of_program h hpiece)

theorem head?_of_program (h : program (tokens .start (cut false (enclosed lines))) = .ok p) :
    lines.head? ≠ some ']' := by
  intro hhead
  obtain ⟨rest, rfl⟩ := List.head?_eq_some_iff.1 hhead
  have hfirst (more : List Char) : first false ']' more = (ofMark .rbracket, more) := rfl
  have hpiece : ofMark .rbracket ∈ cut false (enclosed (']' :: rest)) := by
    rw [cut_enclosed, List.cons_append, cut_of_first (hfirst _)]
    simp
  exact absurd (by decide) (kind_of_program h hpiece)

theorem cut_closing (h : program (tokens .start (cut false (enclosed lines))) = .ok p) :
    cut false (lines ++ '\n' :: Keyword.katapusan.text.toList) = closing lines := by
  have hbracket : lines.getLast? = some '[' →
      Keyword.katapusan.text.toList.head? ≠ some ']' := fun _ => by decide
  rw [cut_append_newline (closed_of_program h) hbracket, cut_katapusan, closing]

def opening : Token := ⟨.keyword .sugod, "SUGOD", .start⟩

theorem tokens_enclosed (h : program (tokens .start (cut false (enclosed lines))) = .ok p) :
    tokens .start (cut false (enclosed lines)) = opening :: tokens ⟨2, 1⟩ (closing lines) := by
  rw [cut_enclosed, cut_closing h]
  rfl

/-- The lines of two programs in a row, with nothing cut differently where they meet. -/
theorem tokens_enclosed_append (hp : program (tokens .start (cut false (enclosed a))) = .ok p)
    (hq : program (tokens .start (cut false (enclosed b))) = .ok q) :
    tokens .start (cut false (enclosed (a ++ '\n' :: b))) =
      opening :: tokens ⟨2, 1⟩ (cut false a ++ blank '\n' :: closing b) := by
  have hbracket : a.getLast? = some '[' →
      (b ++ '\n' :: Keyword.katapusan.text.toList).head? ≠ some ']' := fun _ => by
    cases b with
    | nil => decide
    | cons c b =>
      have hhead : (c :: b).head? ≠ some ']' := head?_of_program hq
      exact hhead
  rw [cut_enclosed, List.append_assoc, List.cons_append,
    cut_append_newline (closed_of_program hp) hbracket, cut_closing hq]
  rfl

theorem kind_of_lines (h : program (tokens .start (cut false (enclosed lines))) = .ok p) :
    ∀ t ∈ lexemes ⟨2, 1⟩ (cut false lines), t.kind ∉ foreignKinds := by
  obtain ⟨start, body, close, last, htokens, -, -, -, hbody⟩ := tokens_shape h
  rw [tokens_enclosed h, closing, tokens_append] at htokens
  obtain ⟨-, htokens⟩ := List.cons.inj htokens
  rwa [(List.append_inj' htokens rfl).1]

theorem program_enclosed_append (hp : program (tokens .start (cut false (enclosed a))) = .ok p)
    (hq : program (tokens .start (cut false (enclosed b))) = .ok q) :
    program (tokens .start (cut false (enclosed (a ++ '\n' :: b)))) = .ok (p ++ q) := by
  obtain ⟨k, htokens, hlater⟩ := tokens_append_newline 2 (cut false a) (closing b)
  rw [tokens_enclosed_append hp hq, htokens]
  have hbody := kind_of_lines hp
  rw [tokens_enclosed hp, closing, tokens_append] at hp
  rw [tokens_enclosed hq] at hq
  exact program_append hbody rfl rfl hp hq hlater

theorem parse_enclosed (lines : String) : parse ("SUGOD\n" ++ lines ++ "\nKATAPUSAN") =
    program (tokens .start (cut false (enclosed lines.toList))) := by
  have htext : ("SUGOD\n" ++ lines ++ "\nKATAPUSAN").toList = enclosed lines.toList := by
    simp [enclosed, Keyword.text]
  rw [parse, tokenize, htext]

/-- The lines of two programs in a row are a program, with the statements of the first and then
those of the second. Its run is that of the first, followed, if that succeeds, by the run of the
second on what is left. -/
theorem parse_lines_append {a b : String} {p q : Program}
    (hp : parse ("SUGOD\n" ++ a ++ "\nKATAPUSAN") = .ok p)
    (hq : parse ("SUGOD\n" ++ b ++ "\nKATAPUSAN") = .ok q) :
    parse ("SUGOD\n" ++ a ++ "\n" ++ b ++ "\nKATAPUSAN") = .ok (p ++ q) ∧
      ∀ n m answers, (execAll n (p ++ q) m).play answers =
        ((execAll n p m).play answers).followedBy fun m' rest => (execAll n q m').play rest := by
  rw [parse_enclosed] at hp hq
  refine ⟨?_, fun n m answers => ?_⟩
  · have hlines : "SUGOD\n" ++ a ++ "\n" ++ b ++ "\nKATAPUSAN" =
        "SUGOD\n" ++ (a ++ "\n" ++ b) ++ "\nKATAPUSAN" := by simp only [String.append_assoc]
    have hjoined : (a ++ "\n" ++ b).toList = a.toList ++ '\n' :: b.toList := by simp
    rw [hlines, parse_enclosed, hjoined]
    exact program_enclosed_append hp hq
  · rw [execAll_append, Run.play_andThen]

/-- A comment and a `DILI` that stands alone end the first lines, and a name begins the second. -/
theorem parse_dili_append_step :
    let p : Program := [.declare .tinuod [⟨"t", none⟩], .assign ⟨["t"], .lit (.tinuod false)⟩]
    let q : Program := [.step ⟨"n", .down⟩]
    parse ("SUGOD\n" ++ "MUGNA TINUOD t\nt = DILI -- \"" ++ "\nKATAPUSAN") = .ok p ∧
      parse ("SUGOD\n" ++ "n--" ++ "\nKATAPUSAN") = .ok q ∧
      parse ("SUGOD\n" ++ "MUGNA TINUOD t\nt = DILI -- \"" ++ "\n" ++ "n--" ++ "\nKATAPUSAN") =
        .ok (p ++ q) ∧
      ∀ n m answers, (execAll n (p ++ q) m).play answers =
        ((execAll n p m).play answers).followedBy fun m' rest => (execAll n q m').play rest := by
  intro p q
  have hp : parse ("SUGOD\n" ++ "MUGNA TINUOD t\nt = DILI -- \"" ++ "\nKATAPUSAN") = .ok p := by cbv
  have hq : parse ("SUGOD\n" ++ "n--" ++ "\nKATAPUSAN") = .ok q := by cbv
  exact ⟨hp, hq, parse_lines_append hp hq⟩

end Bisaya
