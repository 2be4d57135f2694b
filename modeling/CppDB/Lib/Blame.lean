import CppDB.Lib.Descent

/-! Where a recursive-descent parser reports an error. A parser that looks no further than
one token ahead stops for good at the first token that no sentence goes on with; it reports
that token, or the one right behind it where it steps over a token before it judges it. -/
namespace Descent

variable {T E α β : Type}

/-- What reports are judged by. An error may be placed at a token; `alike` relates a token
to those that a first, coarse test does not tell from it. -/
structure Reporting (T E : Type) where
  isEnd : T → Bool
  placed : E → T → Prop
  good : T → Prop
  alike : T → T → Prop
  ends : ∀ {t t' : T}, alike t t' → isEnd t' = isEnd t

variable {S : Reporting T E}

/-- Whatever comes behind the token, the parser reports an error. -/
def Stops (S : Reporting T E) (p : Parser T E α) (before : List T) (t : T) : Prop :=
  ∀ after, Terminated S.isEnd (before ++ t :: after) →
    ∃ e spot, p (before ++ t :: after) = some (.error e) ∧ S.placed e spot

/-- The token lists on which an error is reported where it should be, or one token late. In
the first case the parser stops at every token like the one it reports; in the second some
token like the one it stops at would have done. -/
inductive Site (S : Reporting T E) (p : Parser T E α) (L : List T → Prop) (e : E) :
    List T → Prop where
  | here {before after : List T} {t : T} (viable : ∃ w, L (before ++ w)) (reports : S.placed e t)
      (stops : Stops S p before t) (similar : ∀ t', S.alike t t' → Stops S p before t') :
      Site S p L e (before ++ t :: after)
  | late {before after w : List T} {t n t' : T} (reports : S.placed e n)
      (stops : Stops S p before t) (similar : S.alike t t') (derived : L (before ++ t' :: w)) :
      Site S p L e (before ++ t :: n :: after)

/-- The parser reads sentences, keeps to what it did when the tokens behind the next one
change, and has a place for every error. -/
structure Blames (S : Reporting T E) (p : Parser T E α) (L : List T → Prop) : Prop where
  possible : Nonempty α ∧ ∃ u, L u
  within : ∀ u, L u → ∀ t ∈ u, S.isEnd t = false
  reads : ∀ ts a rest, Terminated S.isEnd ts → p ts = some (.ok (a, rest)) →
    ∃ used, ts = used ++ rest ∧ L used ∧ Terminated S.isEnd rest
  steady : ∀ used n rest a, p (used ++ n :: rest) = some (.ok (a, n :: rest)) →
    Terminated S.isEnd (used ++ n :: rest) → ∀ n' rest', n' = n ∨ S.alike n n' →
    p (used ++ n' :: rest') = some (.ok (a, n' :: rest'))
  blames : ∀ ts e, Terminated S.isEnd ts → (∀ t ∈ ts, S.good t) → p ts = some (.error e) →
    Site S p L e ts

theorem Terminated.suffix {isEnd : T → Bool} {front rest : List T}
    (ends : Terminated isEnd (front ++ rest)) (some : rest ≠ []) : Terminated isEnd rest := by
  obtain ⟨body, last, split, isLast, inner⟩ := ends
  obtain ⟨init, x, rfl⟩ := (List.eq_nil_or_concat' rest).resolve_left some
  rw [← List.append_assoc] at split
  obtain ⟨rfl, same⟩ := List.append_inj' split rfl
  obtain rfl := (List.cons.inj same).1
  exact ⟨init, x, rfl, isLast, fun t there => inner t (List.mem_append_right front there)⟩

theorem bind_throws {p : Parser T E α} {f : α → Parser T E β} {ts : List T} {e : E}
    (throws : (p >>= f) ts = some (.error e)) :
    p ts = some (.error e) ∨
      ∃ a between, p ts = some (.ok (a, between)) ∧ f a between = some (.error e) := by
  cases run : p ts with
  | none => simp only [bind, run, reduceCtorEq] at throws
  | some answer =>
    cases answer with
    | error e' =>
      rw [bind_error run] at throws
      cases throws
      exact .inl rfl
    | ok answer =>
      rw [bind_ok run] at throws
      exact .inr ⟨answer.1, answer.2, rfl, throws⟩

/-- An error of the first of two parsers is one of both. -/
theorem Stops.bind {p : Parser T E α} {before : List T} {t : T} (stops : Stops S p before t)
    (f : α → Parser T E β) : Stops S (p >>= f) before t := by
  intro after ends
  obtain ⟨e, spot, throws, placed⟩ := stops after ends
  exact ⟨e, spot, bind_error throws, placed⟩

theorem separated_throws {p : Parser T E α} {isEnd sep : T → Bool} {ts : List T} {e : E}
    (ends : Terminated isEnd ts)
    (throws : p ts = some (.error e)) : separated isEnd sep p ts = some (.error e) := by
  obtain ⟨x, tail, rfl, -⟩ := ends.exists_cons
  exact bind_error throws

/-- Where its first item stops, the loop does. -/
theorem Stops.separated {p : Parser T E α} {sep : T → Bool} {before : List T} {t : T}
    (stops : Stops S p before t) :
    Stops S (separated S.isEnd sep p) before t := by
  intro after ends
  obtain ⟨e, spot, throws, placed⟩ := stops after ends
  exact ⟨e, spot, separated_throws ends throws, placed⟩

namespace Blames

variable {p q : Parser T E α} {f : α → Parser T E β} {L L' : List T → Prop}
  {M : List T → Prop}

theorem congr (h : Blames S p L) (same : ∀ u, L u ↔ L' u) : Blames S p L' := by
  have equal : L = L' := funext fun u => propext (same u)
  exact equal ▸ h

/-- What was read before stays read when something else comes behind. -/
theorem steady_before (h : Blames S p L) {used before after after' : List T} {t t' : T} {a : α}
    (reads : p (used ++ (before ++ t :: after)) = some (.ok (a, before ++ t :: after)))
    (ends : Terminated S.isEnd (used ++ (before ++ t :: after))) (same : t' = t ∨ S.alike t t') :
    p (used ++ (before ++ t' :: after')) = some (.ok (a, before ++ t' :: after')) := by
  cases before with
  | nil => exact h.steady used t after a reads ends t' after' same
  | cons n before => exact h.steady used n _ a reads ends n _ (.inl rfl)

protected theorem pure (a : α) : Blames S (pure a : Parser T E α) (· = []) where
  possible := ⟨⟨a⟩, [], rfl⟩
  within := by
    rintro _ rfl t there
    cases there
  reads ts b rest ends returns := by
    cases returns
    exact ⟨[], rfl, rfl, ends⟩
  steady used n rest b returns ends n' rest' same := by
    obtain ⟨rfl, nothing⟩ : a = b ∧ used ++ n :: rest = n :: rest := by
      simpa [pure_apply] using returns
    obtain rfl : used = [] := by simpa using nothing
    rfl
  blames ts e ends good throws := by cases throws

/-- The second parser stops where it does, behind what the first has read. -/
theorem stops_behind (hp : Blames S p L) {used before after : List T} {t t' : T} {a : α}
    (reads : p (used ++ (before ++ t :: after)) = some (.ok (a, before ++ t :: after)))
    (ends : Terminated S.isEnd (used ++ (before ++ t :: after))) (same : t' = t ∨ S.alike t t')
    (stops : Stops S (f a) before t') : Stops S (p >>= f) (used ++ before) t' := by
  intro after' ends'
  rw [List.append_assoc] at ends' ⊢
  obtain ⟨e, spot, throws, placed⟩ := stops after' (ends'.suffix (by simp))
  exact ⟨e, spot, by rw [bind_ok (hp.steady_before reads ends same)]; exact throws, placed⟩

/-- The sentences of one language followed by those of another. -/
protected theorem bind (hp : Blames S p L) (hf : ∀ a, Blames S (f a) M) :
    Blames S (p >>= f) (fun u => ∃ v w, u = v ++ w ∧ L v ∧ M w) where
  possible := by
    obtain ⟨⟨a⟩, v, derived⟩ := hp.possible
    obtain ⟨values, w, derived'⟩ := (hf a).possible
    exact ⟨values, v ++ w, v, w, rfl, derived, derived'⟩
  within := by
    rintro _ ⟨v, w, rfl, derived, derived'⟩ t there
    obtain ⟨⟨a⟩, -⟩ := hp.possible
    obtain there | there := List.mem_append.mp there
    · exact hp.within v derived t there
    · exact (hf a).within w derived' t there
  reads ts b rest ends returns := by
    obtain ⟨a, between, first, second⟩ := bind_returns returns
    obtain ⟨v, rfl, derived, ends'⟩ := hp.reads ts a between ends first
    obtain ⟨w, rfl, derived', ends''⟩ := (hf a).reads between b rest ends' second
    exact ⟨v ++ w, (List.append_assoc ..).symm, ⟨v, w, rfl, derived, derived'⟩, ends''⟩
  steady used n rest b returns ends n' rest' same := by
    obtain ⟨a, between, first, second⟩ := bind_returns returns
    obtain ⟨v, split, -, ends'⟩ := hp.reads _ a between ends first
    obtain ⟨w, rfl, -, -⟩ := (hf a).reads between b _ ends' second
    obtain rfl : used = v ++ w := by
      rw [← List.append_assoc] at split
      exact (List.append_inj' split rfl).1
    rw [List.append_assoc] at first ends ⊢
    rw [bind_ok (hp.steady_before first ends same)]
    exact (hf a).steady w n rest b second ends' n' rest' same
  blames ts e ends good throws := by
    obtain first | ⟨a, between, first, second⟩ := bind_throws throws
    · -- the first part fails; what it could have gone on with, the second part completes
      obtain ⟨⟨a⟩, -⟩ := hp.possible
      obtain ⟨-, w', derived'⟩ := (hf a).possible
      cases hp.blames ts e ends good first with
      | here viable reports stops similar =>
        obtain ⟨w, derived⟩ := viable
        exact .here ⟨w ++ w', _, w', (List.append_assoc ..).symm, derived, derived'⟩ reports
          (stops.bind f) fun t' like => (similar t' like).bind f
      | @late before after w t n t' reports stops similar derived =>
        have longer : before ++ t' :: (w ++ w') = (before ++ t' :: w) ++ w' := by simp
        exact .late reports (stops.bind f) similar ⟨_, w', longer, derived, derived'⟩
    · obtain ⟨v, rfl, derived, ends'⟩ := hp.reads ts a between ends first
      have good' : ∀ t ∈ between, S.good t := fun t there => good t (List.mem_append_right v there)
      cases (hf a).blames between e ends' good' second with
      | @here before after t viable reports stops similar =>
        obtain ⟨w, derived'⟩ := viable
        rw [← List.append_assoc]
        refine .here ⟨w, v, before ++ w, List.append_assoc .., derived, derived'⟩ reports ?_ ?_
        · exact hp.stops_behind first ends (.inl rfl) stops
        · intro t' like
          exact hp.stops_behind first ends (.inr like) (similar t' like)
      | @late before after w t n t' reports stops similar derived' =>
        rw [← List.append_assoc]
        refine .late reports ?_ similar ⟨v, _, List.append_assoc .., derived, derived'⟩
        exact hp.stops_behind first ends (.inl rfl) stops

section Sequence

variable {parts : List (List T → Prop)}

protected theorem part (hp : Blames S p L) (hf : ∀ a, Blames S (f a) (sequence parts)) :
    Blames S (p >>= f) (sequence (L :: parts)) :=
  hp.bind hf

/-- A test of what comes next. -/
protected theorem check (hp : Blames S p (· = [])) (hf : ∀ a, Blames S (f a) M) :
    Blames S (p >>= f) M := by
  refine (hp.bind hf).congr fun u => ?_
  constructor
  · rintro ⟨_, w, rfl, rfl, derived⟩
    exact derived
  · intro derived
    exact ⟨[], u, rfl, rfl, derived⟩

protected theorem done (a : α) : Blames S (pure a : Parser T E α) (sequence []) := .pure a

protected theorem map (hp : Blames S p L) (F : α → β) : Blames S (p >>= fun a => pure (F a)) L := by
  refine (hp.bind fun a => .pure (F a)).congr fun u => ?_
  constructor
  · rintro ⟨v, _, rfl, derived, rfl⟩
    rwa [List.append_nil]
  · intro derived
    exact ⟨u, [], (List.append_nil u).symm, derived, rfl⟩

end Sequence

/-- A parser of one token. A token that fails the test is refused on sight; one that passes
it is stepped over, and if it then has no value, the next token is reported. -/
protected theorem judged {test : T → Bool} {verdict : T → Option α}
    (accepts : ∀ t a rest, test t = true → verdict t = some a →
      p (t :: rest) = some (.ok (a, rest)))
    (refuses : ∀ t rest, test t = false → ∃ e, p (t :: rest) = some (.error e) ∧ S.placed e t)
    (rejects : ∀ t rest answer, test t = true → verdict t = none →
      p (t :: rest) ≠ some (.ok answer))
    (late : ∀ t, S.good t → test t = true → verdict t = none →
      (∀ n rest, ∃ e, p (t :: n :: rest) = some (.error e) ∧ S.placed e n) ∧
        ∃ t', S.alike t t' ∧ test t' = true ∧ (verdict t').isSome = true)
    (inner : ∀ t, test t = true → S.isEnd t = false)
    (coarse : ∀ t t', S.alike t t' → test t = false → test t' = false)
    (sample : ∃ t, test t = true ∧ (verdict t).isSome = true) :
    Blames S p fun u => ∃ t, u = [t] ∧ test t = true ∧ (verdict t).isSome = true := by
  have inverts : ∀ t rest a left, p (t :: rest) = some (.ok (a, left)) →
      test t = true ∧ verdict t = some a ∧ left = rest := by
    intro t rest a left returns
    cases passes : test t with
    | false =>
      obtain ⟨e, throws, -⟩ := refuses t rest passes
      cases returns.symm.trans throws
    | true =>
      cases judged : verdict t with
      | none => exact absurd returns (rejects t rest _ passes judged)
      | some b =>
        cases returns.symm.trans (accepts t b rest passes judged)
        exact ⟨rfl, rfl, rfl⟩
  have refused : ∀ t, test t = false → Stops S p [] t := by
    intro t fails after _
    obtain ⟨e, throws, placed⟩ := refuses t after fails
    exact ⟨e, t, throws, placed⟩
  obtain ⟨t₀, passes₀, judged₀⟩ := sample
  obtain ⟨a₀, is₀⟩ := Option.isSome_iff_exists.mp judged₀
  refine ⟨⟨⟨a₀⟩, [t₀], t₀, rfl, passes₀, judged₀⟩, ?_, ?_, ?_, ?_⟩
  · rintro _ ⟨t, rfl, passes, -⟩ t' there
    obtain rfl := List.mem_singleton.mp there
    exact inner t' passes
  · intro ts a rest ends returns
    obtain ⟨t, tail, rfl, ends'⟩ := ends.exists_cons
    obtain ⟨passes, judged, rfl⟩ := inverts t tail a rest returns
    exact ⟨[t], rfl, ⟨t, rfl, passes, by rw [judged]; rfl⟩, ends' (inner t passes)⟩
  · intro used n rest a returns _ n' rest' _
    obtain ⟨t, tail, split, -⟩ := exists_first used n rest
    rw [split] at returns
    obtain ⟨passes, judged, rfl⟩ := inverts t tail a _ returns
    obtain rfl : used = [t] := by
      have aligned : used ++ n :: rest = [t] ++ n :: rest := split
      exact List.append_cancel_right aligned
    exact accepts t a (n' :: rest') passes judged
  · intro ts e ends good throws
    obtain ⟨t, tail, rfl, ends'⟩ := ends.exists_cons
    cases passes : test t with
    | false =>
      obtain ⟨e', throws', placed'⟩ := refuses t tail passes
      cases throws.symm.trans throws'
      exact @Site.here _ _ _ _ _ _ _ [] tail t ⟨[t₀], t₀, rfl, passes₀, judged₀⟩ placed'
        (refused t passes) fun t' like => refused t' (coarse t t' like passes)
    | true =>
      cases judged : verdict t with
      | some a => cases throws.symm.trans (accepts t a tail passes judged)
      | none =>
        obtain ⟨n, rest, rfl, -⟩ := (ends' (inner t passes)).exists_cons
        obtain ⟨misplaces, t', like, passes', judged'⟩ := late t (good t (by simp)) passes judged
        obtain ⟨e', throws', placed'⟩ := misplaces n rest
        cases throws.symm.trans throws'
        have stops : Stops S p [] t := by
          intro after terminated
          obtain ⟨_, _, ⟨⟩, ends''⟩ := terminated.exists_cons
          obtain ⟨n', rest', rfl, -⟩ := (ends'' (inner t passes)).exists_cons
          obtain ⟨e'', throws'', placed''⟩ := misplaces n' rest'
          exact ⟨e'', n', throws'', placed''⟩
        exact @Site.late _ _ _ _ _ _ _ [] rest [] t n t' placed' stops like
          ⟨t', rfl, passes', judged'⟩

/-- A parser of one token that judges it on sight. -/
protected theorem token {test : T → Bool} {value : T → α}
    (accepts : ∀ t rest, test t = true → p (t :: rest) = some (.ok (value t, rest)))
    (refuses : ∀ t rest, test t = false → ∃ e, p (t :: rest) = some (.error e) ∧ S.placed e t)
    (inner : ∀ t, test t = true → S.isEnd t = false)
    (coarse : ∀ t t', S.alike t t' → test t = false → test t' = false)
    (sample : ∃ t, test t = true) :
    Blames S p fun u => ∃ t, u = [t] ∧ test t = true := by
  obtain ⟨t₀, passes₀⟩ := sample
  have judged : Blames S p fun u =>
      ∃ t, u = [t] ∧ test t = true ∧ ((fun t => some (value t)) t).isSome = true := by
    refine .judged ?_ refuses ?_ ?_ inner coarse ⟨t₀, passes₀, rfl⟩
    · rintro t _ rest passes ⟨⟩
      exact accepts t rest passes
    · rintro t rest answer - ⟨⟩
    · rintro t - - ⟨⟩
  exact judged.congr fun u => by simp

/-- A parser that only makes sure that the end has been reached. -/
protected theorem sentinel {a : α}
    (accepts : ∀ t rest, S.isEnd t = true → p (t :: rest) = some (.ok (a, t :: rest)))
    (refuses : ∀ t rest, S.isEnd t = false → ∃ e, p (t :: rest) = some (.error e) ∧ S.placed e t) :
    Blames S p (· = []) := by
  have inverts : ∀ t rest b left, p (t :: rest) = some (.ok (b, left)) →
      S.isEnd t = true ∧ b = a ∧ left = t :: rest := by
    intro t rest b left returns
    cases last : S.isEnd t with
    | false =>
      obtain ⟨e, throws, -⟩ := refuses t rest last
      cases returns.symm.trans throws
    | true =>
      cases returns.symm.trans (accepts t rest last)
      exact ⟨rfl, rfl, rfl⟩
  have refused : ∀ t, S.isEnd t = false → Stops S p [] t := by
    intro t more after _
    obtain ⟨e, throws, placed⟩ := refuses t after more
    exact ⟨e, t, throws, placed⟩
  refine ⟨⟨⟨a⟩, [], rfl⟩, ?_, ?_, ?_, ?_⟩
  · rintro _ rfl t there
    cases there
  · intro ts b rest ends returns
    obtain ⟨t, tail, rfl, -⟩ := ends.exists_cons
    obtain ⟨-, -, rfl⟩ := inverts t tail b rest returns
    exact ⟨[], rfl, rfl, ends⟩
  · intro used n rest b returns _ n' rest' same
    obtain ⟨t, tail, split, -⟩ := exists_first used n rest
    rw [split] at returns
    obtain ⟨last, rfl, left⟩ := inverts t tail b _ returns
    obtain ⟨rfl, rfl⟩ := List.cons.inj left
    obtain rfl : used = [] := by simpa using split
    apply accepts
    obtain rfl | like := same
    · exact last
    · rw [S.ends like, last]
  · intro ts e ends good throws
    obtain ⟨t, tail, rfl, -⟩ := ends.exists_cons
    cases last : S.isEnd t with
    | true => cases throws.symm.trans (accepts t tail last)
    | false =>
      obtain ⟨e', throws', placed'⟩ := refuses t tail last
      cases throws.symm.trans throws'
      exact @Site.here _ _ _ _ _ _ _ [] tail t ⟨[], rfl⟩ placed' (refused t last)
        fun t' like => refused t' (by rw [S.ends like, last])

section Option

variable {test : T → Bool} {k : T → Parser T E α}

theorem option_yes (inner : ∀ t, test t = true → S.isEnd t = false) {t : T}
    (passes : test t = true) (rest : List T) :
    (peek >>= fun t => if test t then advance S.isEnd >>= k else q) (t :: rest) = k t rest := by
  rw [peek_bind, if_pos passes, bind_ok (advance_of_inner (inner t passes) rest)]

theorem option_no {isEnd : T → Bool} {t : T} (fails : test t = false) (rest : List T) :
    (peek >>= fun t => if test t then advance isEnd >>= k else q) (t :: rest) = q (t :: rest) := by
  rw [peek_bind, fails, if_neg Bool.false_ne_true]

/-- A choice made on the next token, which one of the branches steps over. -/
protected theorem option (hk : ∀ t, Blames S (k t) L) (hq : Blames S q M)
    (inner : ∀ t, test t = true → S.isEnd t = false)
    (coarse : ∀ t t', S.alike t t' → test t = false → test t' = false) :
    Blames S (peek >>= fun t => if test t then advance S.isEnd >>= k else q)
      (fun u => (∃ t v, u = t :: v ∧ test t = true ∧ L v) ∨ M u) where
  possible := by
    obtain ⟨values, u, derived⟩ := hq.possible
    exact ⟨values, u, .inr derived⟩
  within := by
    rintro _ (⟨t, v, rfl, passes, derived⟩ | derived) t' there
    · obtain rfl | there := List.mem_cons.mp there
      · exact inner t' passes
      · exact (hk t).within v derived t' there
    · exact hq.within _ derived t' there
  reads ts a rest ends returns := by
    obtain ⟨t, tail, rfl, ends'⟩ := ends.exists_cons
    cases passes : test t with
    | true =>
      rw [option_yes inner passes] at returns
      obtain ⟨used, rfl, derived, ends''⟩ :=
        (hk t).reads tail a rest (ends' (inner t passes)) returns
      exact ⟨t :: used, rfl, .inl ⟨t, used, rfl, passes, derived⟩, ends''⟩
    | false =>
      rw [option_no passes] at returns
      obtain ⟨used, split, derived, ends''⟩ := hq.reads _ a rest ends returns
      exact ⟨used, split, .inr derived, ends''⟩
  steady used n rest a returns ends n' rest' same := by
    cases used with
    | nil =>
      cases passes : test n with
      | true =>
        -- the token has been stepped over, so it cannot be the next one
        obtain ⟨_, _, ⟨⟩, ends'⟩ := ends.exists_cons
        rw [List.nil_append, option_yes inner passes] at returns
        obtain ⟨w, split, -⟩ := (hk n).reads rest a _ (ends' (inner n passes)) returns
        have lengths := congrArg List.length split
        simp only [List.length_append, List.length_cons] at lengths
        omega
      | false =>
        have fails : test n' = false := by
          obtain rfl | like := same
          · exact passes
          · exact coarse n n' like passes
        rw [List.nil_append, option_no passes] at returns
        rw [List.nil_append, option_no fails]
        exact hq.steady [] n rest a returns ends n' rest' same
    | cons t used =>
      obtain ⟨_, _, ⟨⟩, ends'⟩ := ends.exists_cons
      cases passes : test t with
      | true =>
        rw [List.cons_append, option_yes inner passes] at returns ⊢
        exact (hk t).steady used n rest a returns (ends' (inner t passes)) n' rest' same
      | false =>
        rw [List.cons_append, option_no passes] at returns ⊢
        exact hq.steady (t :: used) n rest a returns ends n' rest' same
  blames ts e ends good throws := by
    obtain ⟨t, tail, rfl, ends'⟩ := ends.exists_cons
    cases passes : test t with
    | true =>
      have stops_yes : ∀ {before t'}, Stops S (k t) before t' →
          Stops S (peek >>= fun t => if test t then advance S.isEnd >>= k else q)
            (t :: before) t' := by
        intro before t' stops after terminated
        have tail' : Terminated S.isEnd ([t] ++ (before ++ t' :: after)) := terminated
        rw [List.cons_append, option_yes inner passes]
        exact stops after (tail'.suffix (by simp))
      rw [option_yes inner passes] at throws
      have good' : ∀ t' ∈ tail, S.good t' := fun t' there => good t' (by simp [there])
      cases (hk t).blames tail e (ends' (inner t passes)) good' throws with
      | @here before after t' viable reports stops similar =>
        obtain ⟨w, derived⟩ := viable
        rw [← List.cons_append]
        exact .here ⟨w, .inl ⟨t, before ++ w, rfl, passes, derived⟩⟩ reports (stops_yes stops)
          fun t'' like => stops_yes (similar t'' like)
      | @late before after w t' n t'' reports stops similar derived =>
        rw [← List.cons_append]
        exact .late reports (stops_yes stops) similar (.inl ⟨t, _, rfl, passes, derived⟩)
    | false =>
      have stops_no : ∀ {before after t' t''}, t :: tail = before ++ t' :: after →
          (t'' = t' ∨ S.alike t' t'') → Stops S q before t'' →
          Stops S (peek >>= fun t => if test t then advance S.isEnd >>= k else q) before t'' := by
        intro before after t' t'' split same stops after' terminated
        have skips : (peek >>= fun t => if test t then advance S.isEnd >>= k else q)
            (before ++ t'' :: after') = q (before ++ t'' :: after') := by
          cases before with
          | nil =>
            obtain rfl : t = t' := (List.cons.inj split).1
            obtain rfl | like := same
            · exact option_no passes after'
            · exact option_no (coarse t t'' like passes) after'
          | cons x before =>
            obtain rfl : t = x := (List.cons.inj split).1
            exact option_no passes _
        rw [skips]
        exact stops after' terminated
      rw [option_no passes] at throws
      generalize whole : t :: tail = ts at *
      cases hq.blames ts e ends good throws with
      | here viable reports stops similar =>
        obtain ⟨w, derived⟩ := viable
        exact .here ⟨w, .inr derived⟩ reports (stops_no rfl (.inl rfl) stops)
          fun t'' like => stops_no rfl (.inr like) (similar t'' like)
      | late reports stops similar derived =>
        exact .late reports (stops_no rfl (.inl rfl) stops) similar (.inr derived)

end Option

section Separated

variable {sep : T → Bool} {g : α → List T → Prop}

theorem rounds_leaves (isEnd sep : T → Bool) (p : Parser T E α) (n : Nat) :
    Leaves (Begins fun t => sep t = false) (rounds isEnd sep p n) := by
  induction n with
  | zero =>
    intro ts items rest returns
    cases returns
  | succ n ih =>
    refine .bind fun a => ?_
    rintro (- | ⟨t, ts⟩) items rest returns
    · cases returns
    · rw [peek_bind] at returns
      cases another : sep t with
      | true =>
        rw [another, if_pos rfl] at returns
        exact Leaves.bind (fun _ => ih.andPure) _ _ _ returns
      | false =>
        rw [another, if_neg Bool.false_ne_true] at returns
        cases returns
        exact ⟨t, ts, rfl, another⟩

variable (hp : Reads S.isEnd p g fun _ => True) (inner : ∀ t, sep t = true → S.isEnd t = false)
include hp inner

/-- Rounds beyond the number of tokens change nothing. -/
theorem rounds_enough {ts : List T} (ends : Terminated S.isEnd ts) {n : Nat}
    (enough : ts.length ≤ n) :
    rounds S.isEnd sep p n ts = rounds S.isEnd sep p ts.length ts := by
  induction size : ts.length using Nat.strong_induction_on generalizing ts n with
  | _ l ih =>
    obtain ⟨t, tail, rfl, -⟩ := ends.exists_cons
    rw [List.length_cons] at enough size
    obtain ⟨n, rfl⟩ : ∃ m, n = m + 1 := ⟨n - 1, by omega⟩
    subst size
    obtain ⟨e, throws⟩ | ⟨a, used, rest, reads, ends', split, -⟩ := hp.sound _ ends
    · rw [rounds, rounds, bind_error throws, bind_error throws]
    · obtain ⟨t', rest, rfl, ends''⟩ := ends'.exists_cons
      rw [rounds, rounds, bind_ok reads, bind_ok reads, peek_bind, peek_bind]
      cases another : sep t' with
      | false => rfl
      | true =>
        have terminated := ends'' (inner t' another)
        have shorter : rest.length < tail.length + 1 := by
          have lengths := congrArg List.length split
          simp only [List.length_append, List.length_cons] at lengths
          omega
        have same : rounds S.isEnd sep p n rest = rounds S.isEnd sep p tail.length rest :=
          (ih _ shorter terminated (by omega) rfl).trans
            (ih _ shorter terminated (by omega) rfl).symm
        rw [if_pos rfl, if_pos rfl, bind_ok (advance_of_inner (inner t' another) rest),
          bind_ok (advance_of_inner (inner t' another) rest)]
        simp only [bind, same]

/-- The loop after an item and a separator. -/
theorem separated_more {ts rest : List T} {t : T} {a : α} (ends : Terminated S.isEnd ts)
    (reads : p ts = some (.ok (a, t :: rest))) (another : sep t = true) :
    separated S.isEnd sep p ts =
      (separated S.isEnd sep p >>= fun others => pure (a :: others)) rest := by
  obtain ⟨e, throws⟩ | ⟨_, used, _, reads', ends', split, -⟩ := hp.sound ts ends
  · cases reads.symm.trans throws
  cases reads.symm.trans reads'
  have terminated : Terminated S.isEnd rest := by
    obtain ⟨_, _, ⟨⟩, ends''⟩ := ends'.exists_cons
    exact ends'' (inner t another)
  obtain ⟨x, tail, rfl, -⟩ := ends.exists_cons
  have enough : rest.length ≤ tail.length := by
    have lengths := congrArg List.length split
    simp only [List.length_append, List.length_cons] at lengths
    omega
  rw [separated, List.length_cons, rounds, bind_ok reads, peek_bind, if_pos another,
    bind_ok (advance_of_inner (inner t another) rest)]
  simp only [bind, separated, rounds_enough hp inner terminated enough]

variable (places : Blames S p fun u => ∃ a, g a u)
include places

/-- Where the rounds behind a separator stop, the loop does. -/
theorem stops_more {used before rest : List T} {t t' : T} {a : α}
    (first : p (used ++ t :: rest) = some (.ok (a, t :: rest)))
    (ends : Terminated S.isEnd (used ++ t :: rest)) (another : sep t = true)
    (stops : Stops S (separated S.isEnd sep p) before t') :
    Stops S (separated S.isEnd sep p) (used ++ t :: before) t' := by
  intro after terminated
  rw [List.append_assoc, List.cons_append] at terminated ⊢
  have reads := places.steady used t rest a first ends t (before ++ t' :: after) (.inl rfl)
  have terminated' : Terminated S.isEnd ((used ++ [t]) ++ (before ++ t' :: after)) := by
    simpa using terminated
  obtain ⟨e, spot, throws, placed⟩ := stops after (terminated'.suffix (by simp))
  rw [separated_more hp inner terminated reads another]
  exact ⟨e, spot, bind_error throws, placed⟩

theorem separated_site {ts : List T} {e : E} (ends : Terminated S.isEnd ts)
    (good : ∀ t ∈ ts, S.good t) (throws : separated S.isEnd sep p ts = some (.error e)) :
    Site S (separated S.isEnd sep p) (fun u => ∃ items, Separated sep g items u) e ts := by
  induction size : ts.length using Nat.strong_induction_on generalizing ts with
  | _ l ih =>
    cases first : p ts with
    | none =>
      obtain ⟨_, fails⟩ | ⟨_, _, _, reads, -⟩ := hp.sound ts ends
      · cases first.symm.trans fails
      · cases first.symm.trans reads
    | some answer =>
      cases answer with
      | error e' =>
        cases throws.symm.trans (separated_throws ends first)
        cases places.blames ts e ends good first with
        | here viable reports stops similar =>
          obtain ⟨w, a, derived⟩ := viable
          exact .here ⟨w, [a], .one derived⟩ reports stops.separated
            fun t' like => (similar t' like).separated
        | late reports stops similar derived =>
          obtain ⟨a, derived⟩ := derived
          exact .late reports stops.separated similar ⟨[a], .one derived⟩
      | ok answer =>
        obtain ⟨a, left⟩ := answer
        obtain ⟨used, rfl, ⟨a', derived⟩, ends'⟩ := places.reads ts a left ends first
        obtain ⟨t, rest, rfl, ends''⟩ := ends'.exists_cons
        cases another : sep t with
        | false =>
          -- the loop ends without an error
          obtain ⟨x, tail, split, -⟩ := ends.exists_cons
          rw [separated, split, List.length_cons, rounds, ← split, bind_ok first, peek_bind,
            another] at throws
          cases throws
        | true =>
          have later {before : List T} {t' : T}
              (stops : Stops S (separated S.isEnd sep p) before t') :=
            stops_more hp inner places first ends another stops
          have terminated := ends'' (inner t another)
          rw [separated_more hp inner ends first another] at throws
          obtain throws | ⟨others, between, -, never⟩ := bind_throws throws
          swap
          · cases never
          have shorter : rest.length < l := by
            rw [← size, List.length_append, List.length_cons]
            omega
          cases ih rest.length shorter terminated
            (fun t' there => good t' (by simp [there])) throws rfl with
          | @here before after t' viable reports stops similar =>
            obtain ⟨w, items, others⟩ := viable
            have longer : Separated sep g (a' :: items) (used ++ t :: before ++ w) := by
              rw [List.append_assoc, List.cons_append]
              exact .more derived another others
            have whole : used ++ t :: (before ++ t' :: after) =
                used ++ t :: before ++ t' :: after := by simp
            rw [whole]
            exact .here ⟨w, a' :: items, longer⟩ reports
              (later stops) fun t'' like => later (similar t'' like)
          | @late before after w t' n t'' reports stops similar others =>
            obtain ⟨items, others⟩ := others
            have longer : Separated sep g (a' :: items) (used ++ t :: before ++ t'' :: w) := by
              rw [List.append_assoc, List.cons_append]
              exact .more derived another others
            have whole : used ++ t :: (before ++ t' :: n :: after) =
                used ++ t :: before ++ t' :: n :: after := by simp
            rw [whole]
            exact .late reports (later stops) similar ⟨a' :: items, longer⟩

/-- The loop over items and separators. -/
protected theorem separated
    (coarse : ∀ t t', S.alike t t' → sep t = false → sep t' = false) :
    Blames S (separated S.isEnd sep p) fun u => ∃ items, Separated sep g items u where
  possible := by
    obtain ⟨-, u, a, derived⟩ := places.possible
    exact ⟨⟨[]⟩, u, [a], .one derived⟩
  within := by
    rintro u ⟨items, derived⟩
    induction derived with
    | one first => exact places.within _ ⟨_, first⟩
    | more first between _ ih =>
      intro t there
      obtain there | there := List.mem_append.mp there
      · exact places.within _ ⟨_, first⟩ t there
      · obtain rfl | there := List.mem_cons.mp there
        · exact inner t between
        · exact ih t there
  reads ts items rest ends returns := by
    obtain ⟨e, throws⟩ | ⟨_, used, _, reads, ends', split, derived⟩ :=
      (Reads.separated hp inner).sound ts ends
    · cases returns.symm.trans throws
    · cases returns.symm.trans reads
      exact ⟨used, split, ⟨items, derived⟩, ends'⟩
  steady used n rest items returns ends n' rest' same := by
    obtain ⟨_, _, ⟨⟩, last⟩ := rounds_leaves _ _ _ _ _ _ _ returns
    have last' : sep n' = false := by
      obtain rfl | like := same
      · exact last
      · exact coarse n n' like last
    obtain ⟨e, throws⟩ | ⟨_, used', _, reads, -, split, derived⟩ :=
      (Reads.separated hp inner).sound _ ends
    · cases returns.symm.trans throws
    · cases returns.symm.trans reads
      obtain rfl := List.append_cancel_right split
      exact (Reads.separated hp inner).complete items used n' rest' derived last'
  blames _ _ ends good throws := separated_site hp inner places ends good throws

end Separated

end Blames
end Descent
