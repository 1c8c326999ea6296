import GraphMotif.Proofs.Pattern.Layout

/-!
# The machine on tokens

The reader of patterns as a machine on tokens: `complete?` takes the tokens that end a text and gives
its clauses. A token extends what has been read of a clause by itself (`tokens_next?`), so whatever
the machine accepts has the tokens of the clauses returned; and the tokens of any clause lead from its
start to its end (`complete?_append`). So it accepts exactly the tokens of clauses
(`complete?_eq_some_iff`).
-/

namespace GraphMotif.Pattern

/-! ## The reader on tokens -/

/-- The tokens of a half edge. -/
def HalfEdge.tokens (h : HalfEdge) : List Token :=
  Written.bangTokens h.negated ++ Written.vertexTokens h.first ++
    [match h.direction with
      | .forward => .dash
      | .backward => .backArrow]

/-- The token between an edge and its second end. -/
def Direction.tip : Direction → Token
  | .forward => .arrow
  | .backward => .dash

/-- The tokens of the part of a clause that has been read. -/
def Progress.tokens : Progress → List Token
  | nothing => []
  | bang => [.bang]
  | firstOpened n => Written.bangTokens n ++ [.openParen]
  | firstNamed n a => Written.bangTokens n ++ [.openParen, .name a.toList]
  | first n a => Written.bangTokens n ++ Written.vertexTokens a
  | half h => h.tokens
  | edgeOpened h => h.tokens ++ [.openBracket]
  | edgeNamed h e => h.tokens ++ [.openBracket, .name e.toList]
  | edge h e => h.tokens ++ Written.edgeTokens e
  | pointed h e => h.tokens ++ Written.edgeTokens e ++ [h.direction.tip]
  | secondOpened h e => h.tokens ++ Written.edgeTokens e ++ [h.direction.tip, .openParen]
  | secondNamed h e b =>
    h.tokens ++ Written.edgeTokens e ++ [h.direction.tip, .openParen, .name b.toList]
  | whole w => w.tokens

/-- The clauses of tokens that end a text, after the clauses `done` and some progress within the
next one. -/
def complete? (done : List Written) (q : Progress) : List Token → Option (List Written)
  | [] =>
    match q.clause? with
    | some w => some (done ++ [w])
    | none => if q = .nothing ∧ done = [] then some [] else none
  | t :: ts =>
    match t, q.clause? with
    | .semicolon, some w => complete? (done ++ [w]) .nothing ts
    | _, _ => (q.next? t).bind fun q' => complete? done q' ts

/-- The tokens of clauses, with a semicolon between any two of them. -/
def clauseTokens (ws : List Written) : List Token :=
  List.intercalate [.semicolon] (ws.map Written.tokens)

theorem HalfEdge.tokens_complete (h : HalfEdge) (edge second : Slot) :
    (h.complete edge second).tokens =
      h.tokens ++ Written.edgeTokens edge ++ h.direction.tip :: Written.vertexTokens second := by
  obtain ⟨direction, negated, first⟩ := h
  cases direction <;>
    simp [HalfEdge.complete, HalfEdge.tokens, Written.tokens, Direction.tip, List.append_assoc]

/-- A token that can come next extends what has been read by itself. -/
theorem tokens_next? {q q' : Progress} {t : Token} (h : q.next? t = some q') :
    q'.tokens = q.tokens ++ [t] := by
  unfold Progress.next? at h
  split at h
  case h_19 => exact absurd h nofun
  all_goals
    obtain rfl := Option.some.inj h
    simp [Progress.tokens, HalfEdge.tokens, HalfEdge.tokens_complete, Written.bangTokens,
      Written.vertexTokens, Written.edgeTokens, Written.slotTokens, Direction.tip,
      List.append_assoc]

/-- The tokens of a clause that may end are those that have been read. -/
theorem tokens_of_clause? {q : Progress} {w : Written} (h : q.clause? = some w) :
    w.tokens = q.tokens := by
  cases q <;> simp only [Progress.clause?, Option.some.injEq, reduceCtorEq] at h
  all_goals
    subst h
    rfl

theorem clauseTokens_cons_cons (w v : Written) (ws : List Written) :
    clauseTokens (w :: v :: ws) = w.tokens ++ Token.semicolon :: clauseTokens (v :: ws) := by
  simp [clauseTokens, List.append_assoc]

theorem clauseTokens_concat (ws : List Written) (w : Written) :
    clauseTokens (ws ++ [w]) =
      (ws.flatMap fun w => w.tokens ++ [Token.semicolon]) ++ w.tokens := by
  induction ws with
  | nil => simp [clauseTokens]
  | cons v ws ih =>
    have hcons : clauseTokens (v :: (ws ++ [w])) =
        v.tokens ++ [Token.semicolon] ++ clauseTokens (ws ++ [w]) := by
      obtain ⟨u, us, hus⟩ := List.exists_cons_of_ne_nil (List.append_ne_nil_of_right_ne_nil ws
        (List.cons_ne_nil w []))
      rw [hus, clauseTokens_cons_cons, List.append_assoc, List.singleton_append]
    rw [List.cons_append, hcons, ih, List.flatMap_cons, List.append_assoc, List.append_assoc,
      List.append_assoc]

/-- Accepted tokens are those of the clauses returned. -/
theorem eq_clauseTokens_of_complete? {done out : List Written} {q : Progress} {ts : List Token}
    (h : complete? done q ts = some out) :
    (done.flatMap fun w => w.tokens ++ [Token.semicolon]) ++ q.tokens ++ ts =
      clauseTokens out := by
  induction ts generalizing done q with
  | nil =>
    simp only [complete?] at h
    split at h
    · next w hw =>
      obtain rfl := Option.some.inj h
      rw [clauseTokens_concat, tokens_of_clause? hw, List.append_nil]
    · split at h
      · next hempty =>
        obtain ⟨rfl, rfl⟩ := hempty
        obtain rfl := Option.some.inj h
        rfl
      · exact absurd h nofun
  | cons t ts ih =>
    unfold complete? at h
    split at h
    · next w hw =>
      rw [← ih h, ← tokens_of_clause? hw]
      simp [Progress.tokens, List.append_assoc]
    · obtain ⟨q', hq', h⟩ := Option.bind_eq_some_iff.1 h
      rw [← ih h, tokens_next? hq']
      simp [List.append_assoc]

/-- What has been read after the last token of a clause. -/
def Written.progress : Written → Progress
  | vertex n a => .first n a
  | w => .whole w

theorem clause?_progress (w : Written) : w.progress.clause? = some w := by
  cases w <;> rfl

/-- A token that can come next is taken, so it is no semicolon after a clause that may end. -/
theorem complete?_cons {q q' : Progress} {t : Token} (h : q.next? t = some q')
    (done : List Written) (ts : List Token) :
    complete? done q (t :: ts) = complete? done q' ts := by
  rw [complete?, h, Option.bind_some]
  intro w ht hw
  subst ht
  cases q with
  | first n a => exact absurd h nofun
  | whole w => exact absurd h nofun
  | _ => exact absurd hw nofun

theorem complete?_firstSlot (done : List Written) (n : Bool) (a : Slot) (ts : List Token) :
    complete? done (.firstOpened n) (Written.slotTokens a ++ .closeParen :: ts) =
      complete? done (.first n a) ts := by
  cases a with
  | none => exact complete?_cons rfl done ts
  | some a =>
    refine (complete?_cons rfl done _).trans ?_
    rw [String.ofList_toList]
    exact complete?_cons rfl done ts

theorem complete?_edgeSlot (done : List Written) (h : HalfEdge) (e : Slot) (ts : List Token) :
    complete? done (.edgeOpened h) (Written.slotTokens e ++ .closeBracket :: ts) =
      complete? done (.edge h e) ts := by
  cases e with
  | none => exact complete?_cons rfl done ts
  | some e =>
    refine (complete?_cons rfl done _).trans ?_
    rw [String.ofList_toList]
    exact complete?_cons rfl done ts

theorem complete?_secondSlot (done : List Written) (h : HalfEdge) (e b : Slot)
    (ts : List Token) :
    complete? done (.secondOpened h e) (Written.slotTokens b ++ .closeParen :: ts) =
      complete? done (.whole (h.complete e b)) ts := by
  cases b with
  | none => exact complete?_cons rfl done ts
  | some b =>
    refine (complete?_cons rfl done _).trans ?_
    rw [String.ofList_toList]
    exact complete?_cons rfl done ts

theorem complete?_vertex (done : List Written) (n : Bool) (a : Slot) (ts : List Token) :
    complete? done .nothing (Written.bangTokens n ++ Written.vertexTokens a ++ ts) =
      complete? done (.first n a) ts := by
  have hslot := complete?_firstSlot done n a ts
  rw [Written.vertexTokens, List.append_assoc, List.cons_append, List.cons_append,
    List.append_assoc, List.singleton_append]
  cases n with
  | false => exact (complete?_cons rfl done _).trans hslot
  | true => exact (complete?_cons rfl done _).trans ((complete?_cons rfl done _).trans hslot)

theorem complete?_edge (done : List Written) (h : HalfEdge) (e b : Slot) (ts : List Token) :
    complete? done .nothing ((h.complete e b).tokens ++ ts) =
      complete? done (.whole (h.complete e b)) ts := by
  rw [h.tokens_complete, HalfEdge.tokens, List.append_assoc, List.append_assoc,
    List.append_assoc, complete?_vertex]
  simp only [Written.edgeTokens, Written.vertexTokens, List.append_assoc, List.cons_append,
    List.nil_append]
  -- one token to the edge, two to its second end
  have hhalf : (Progress.first h.negated h.first).next?
      (match h.direction with
        | .forward => .dash
        | .backward => .backArrow) = some (.half h) := by
    obtain ⟨direction, negated, first⟩ := h
    cases direction <;> rfl
  have htip : (Progress.edge h e).next? h.direction.tip = some (.pointed h e) := by
    obtain ⟨direction, negated, first⟩ := h
    cases direction <;> rfl
  rw [complete?_cons hhalf, complete?_cons rfl, complete?_edgeSlot, complete?_cons htip,
    complete?_cons rfl, complete?_secondSlot]

/-- The tokens of a clause lead from its start to its end. -/
theorem complete?_append (done : List Written) (w : Written) (ts : List Token) :
    complete? done .nothing (w.tokens ++ ts) = complete? done w.progress ts := by
  cases w with
  | vertex n a => exact complete?_vertex done n a ts
  | forward n a e b => exact complete?_edge done ⟨.forward, n, a⟩ e b ts
  | backward n a e b => exact complete?_edge done ⟨.backward, n, a⟩ e b ts

/-- The tokens of clauses are accepted. -/
theorem complete?_clauseTokens (done ws : List Written) (h : ws = [] → done = []) :
    complete? done .nothing (clauseTokens ws) = some (done ++ ws) := by
  induction ws generalizing done with
  | nil =>
    obtain rfl := h rfl
    rfl
  | cons w ws ih =>
    cases ws with
    | nil =>
      have hcomplete := complete?_append done w []
      rw [List.append_nil] at hcomplete
      rw [show clauseTokens [w] = w.tokens by simp [clauseTokens], hcomplete]
      simp only [complete?, clause?_progress]
    | cons v ws =>
      rw [clauseTokens_cons_cons, complete?_append]
      simp only [complete?, clause?_progress]
      rw [ih (done ++ [w]) (by simp), List.append_assoc, List.singleton_append]

/-- From the start, the machine accepts the tokens of clauses and gives these clauses. -/
theorem complete?_eq_some_iff {ts : List Token} {ws : List Written} :
    complete? [] .nothing ts = some ws ↔ ts = clauseTokens ws := by
  constructor
  · intro h
    simpa [Progress.tokens] using eq_clauseTokens_of_complete? h
  · rintro rfl
    exact complete?_clauseTokens [] ws fun _ => rfl

/-- A clause does not end with a name; a closing bracket comes next. -/
theorem Progress.closes_after_name {q q' : Progress} {name : List Char}
    (h : q.next? (.name name) = some q') :
    q'.clause? = none ∧ ∀ t q'', q'.next? t = some q'' → t = .closeParen ∨ t = .closeBracket := by
  cases q <;> simp only [next?, Option.some.injEq, reduceCtorEq] at h
  all_goals
    subst h
    refine ⟨rfl, fun t q'' ht => ?_⟩
    cases t with
    | closeParen => exact .inl rfl
    | closeBracket => exact .inr rfl
    | _ => exact absurd ht nofun

/-! ## The reader and the machine -/

namespace Reader

/-- The clauses that a reader has read. -/
def done (r : Reader) : List Written := r.clauses.map (·.written)

theorem complete?_next? (r : Reader) (offset : Nat) (t : Token) (ts : List Token) :
    complete? r.done r.progress (t :: ts) =
      (r.next? offset t).bind fun r' => complete? r'.done r'.progress ts := by
  unfold next?
  split
  · next w hw =>
    simp only [complete?, hw, Option.bind_some, done, List.map_append, List.map_cons, List.map_nil]
  · next hother =>
    rw [complete?, Option.bind_map]
    · rfl
    · exact fun w ht hw => hother w ht hw

theorem complete?_finish? (r : Reader) :
    complete? r.done r.progress [] = r.finish?.map fun placed => placed.map (·.written) := by
  unfold finish?
  split
  · next w hw => simp [complete?, hw, done]
  · next hnone =>
    simp only [complete?, hnone, done, List.map_eq_nil_iff]
    split <;> rfl

/-- After a name comes a closing bracket, so no character that would belong to the name. -/
theorem head?_after_name {name : List Char} {ts : List Token} {cs : List Char} {r : Reader}
    {out : List Written} (hlaid : Laid ts cs)
    (h : complete? r.done r.progress (.name name :: ts) = some out) :
    ∀ c ∈ cs.head?, isIdentifierPart c = false := by
  obtain ⟨q, hq, hcomplete⟩ : ∃ q, r.progress.next? (.name name) = some q ∧
      complete? r.done q ts = some out := Option.bind_eq_some_iff.1 h
  obtain ⟨hclause, hclose⟩ := Progress.closes_after_name hq
  cases hlaid with
  | nil hcs =>
    intro c hc
    exact isIdentifierPart_eq_false (hcs c (List.mem_of_mem_head? hc))
  | @cons t ts blanks cs hblanks _ =>
    rw [complete?] at hcomplete
    · obtain ⟨q', hq', -⟩ := Option.bind_eq_some_iff.1 hcomplete
      intro c hc
      cases blanks with
      | cons b blanks =>
        obtain rfl : b = c := Option.some.inj hc
        exact isIdentifierPart_eq_false (hblanks b List.mem_cons_self)
      | nil =>
        rcases hclose t q' hq' with rfl | rfl
        all_goals
          obtain rfl : _ = c := Option.some.inj hc
          decide
    · intro w _ hw
      exact absurd (hclause.symm.trans hw) nofun

/-- A dash can come next where no arrow is awaited, an arrow where one is. -/
theorem arrowAwaited_of_next? {r r' : Reader} {offset : Nat} {t : Token}
    (h : r.next? offset t = some r') :
    (t = .dash → r.progress.arrowAwaited = false) ∧
      (t = .arrow → r.progress.arrowAwaited = true) := by
  constructor
  all_goals
    rintro rfl
    simp only [next?, Option.map_eq_some_iff] at h
    obtain ⟨q', hq', -⟩ := h
    cases hq : r.progress with
    | edge h e =>
      obtain ⟨direction, n, a⟩ := h
      rw [hq] at hq'
      cases direction with
      | forward => first | rfl | exact absurd hq' nofun
      | backward => first | rfl | exact absurd hq' nofun
    | _ =>
      rw [hq] at hq'
      first | rfl | exact absurd hq' nofun

/-- A token that can come next is read where it stands at the start of a text, a name if it ends
there. -/
theorem read?_of_next? {r r' : Reader} {offset : Nat} {t : Token} {cs : List Char}
    (ht : t.WellSpelled) (h : r.next? offset t = some r')
    (hname : ∀ name, t = .name name → ∀ c ∈ cs.head?, isIdentifierPart c = false) :
    Token.read? r.progress.arrowAwaited (t.spelling ++ cs) = some (t, cs) := by
  -- a name could be read on into the text after it, any other token is read whole
  by_cases hmark : ∃ name, t = .name name
  · obtain ⟨name, rfl⟩ := hmark
    exact read?_name ht (hname name rfl)
  · obtain ⟨hdash, harrow⟩ := arrowAwaited_of_next? h
    exact read?_mark cs (fun name heq => hmark ⟨name, heq⟩) hdash harrow

end Reader

end GraphMotif.Pattern
