import FakeLisp.GrammerMerge
import FakeLisp.ObarrayInterns

/-! Symbols by their texts: comparison of addresses is comparison of texts inside one grammar, and
a merged symbol has the text it had. -/

namespace FakeLisp.GrammerTables

theorem arrayEqual_iff {α β : Type} {e : α → α → Bool} {f : α → β} {a b : List α}
    (h : ∀ x ∈ a, ∀ y ∈ b, e x y = true ↔ f x = f y) :
    arrayEqual e a b = true ↔ a.map f = b.map f := by
  induction a generalizing b with
  | nil => cases b <;> simp [arrayEqual]
  | cons x a ih =>
    cases b with
    | nil => simp [arrayEqual]
    | cons y b =>
      have hxy := h x (by simp) y (by simp)
      have hab := ih (b := b) fun x hx y hy =>
        h x (List.mem_cons_of_mem _ hx) y (List.mem_cons_of_mem _ hy)
      simp only [arrayEqual, Bool.and_eq_true, beq_iff_eq] at hab
      simp only [arrayEqual, List.length_cons, List.zip_cons_cons, List.all_cons, List.map_cons,
        Bool.and_eq_true, beq_iff_eq, add_left_inj, List.cons.injEq, ← hab, ← hxy]
      tauto

inductive TermText where
  | string (str : List UInt8)
  | regex (re : Option (List UInt8))
  | builtin (t : FklLalrBuiltinMatch) (args : List (List UInt8))
  deriving DecidableEq

inductive SymText where
  | term (s : TermText)
  | keyword (str : List UInt8)
  | ignore
  | nonterm (nt : Nat)
  | comp (len : Nat)
  deriving DecidableEq

def FklGrammerIgnoreSym.text (rt : FklRegexTable) : FklGrammerIgnoreSym → TermText
  | .string str => .string str.key
  | .regex re => .regex (fklGetStringWithRegex rt re)
  | .builtin b => .builtin b.t (b.args.map (·.key))

def FklGrammerSym.text (rt : FklRegexTable) : FklGrammerSym → SymText
  | .term s => .term (s.text rt)
  | .keyword str => .keyword str.key
  | .ignore => .ignore
  | .nonterm nt => .nonterm nt
  | .comp len => .comp len

/-- The strings that the merge makes delimiters. -/
def FklGrammerSym.delims : FklGrammerSym → List (List UInt8)
  | .term (.string str) => [str.key]
  | .term (.builtin b) => b.args.map (·.key)
  | _ => []

namespace SymTables

/-- The symbol has its strings and its regular expression from the tables. -/
def HasSym (t : SymTables) : FklGrammerSym → Prop
  | .term (.string str) | .keyword str => str ∈ t.terminals
  | .term (.regex re) => ∀ a, re = some a → a < t.regexes.keys.length
  | .term (.builtin b) => (∀ str ∈ b.args, str ∈ t.terminals) ∧
      fklBuiltinTermArgsCheck b.t b.args.length = .dummy
  | _ => True

/-- Nothing is left to add for a symbol with the text. -/
def Covers (t : SymTables) : SymText → Prop
  | .term (.string str) => str ∈ t.terminals.keys ∧ str ∈ t.delimiters.keys
  | .term (.regex re) => ∀ str, re = some str → str ∈ t.regexes.keys
  | .term (.builtin _ args) => ∀ str ∈ args, str ∈ t.terminals.keys ∧ str ∈ t.delimiters.keys
  | .keyword str => str ∈ t.terminals.keys
  | _ => True

/-- The tables have grown, the one of the delimiters by the strings `ds`. -/
structure Extends (ds : List (List UInt8)) (t t' : SymTables) : Prop where
  terminals : t.terminals ≤ t'.terminals
  regexes : t.regexes ≤ t'.regexes
  delims : ∀ d, d ∈ t'.delimiters.keys ↔ d ∈ t.delimiters.keys ∨ d ∈ ds

variable {t t' t'' : SymTables} {ds ds' : List (List UInt8)} {s s' : FklGrammerSym}
  {ss ss' : List FklGrammerSym} {E : GrammerEnv}

theorem Extends.refl (t : SymTables) : Extends [] t t := ⟨le_rfl, le_rfl, by simp⟩

theorem Extends.trans (h : Extends ds t t') (h' : Extends ds' t' t'') :
    Extends (ds ++ ds') t t'' := by
  refine ⟨h.terminals.trans h'.terminals, h.regexes.trans h'.regexes, fun d => ?_⟩
  rw [h'.delims, h.delims, List.mem_append, or_assoc]

theorem Extends.hasSym (h : Extends ds t t') (hs : t.HasSym s) : t'.HasSym s := by
  unfold HasSym at hs ⊢
  split at hs
  · exact InternTable.mem_mono h.terminals hs
  · exact InternTable.mem_mono h.terminals hs
  · exact fun a ha => (hs a ha).trans_le h.regexes.length_le
  · exact ⟨fun str hstr => InternTable.mem_mono h.terminals (hs.1 str hstr), hs.2⟩
  · trivial

theorem Extends.covers (h : Extends ds t t') {x : SymText} (hx : t.Covers x) : t'.Covers x := by
  have hboth : ∀ str, str ∈ t.terminals.keys ∧ str ∈ t.delimiters.keys →
      str ∈ t'.terminals.keys ∧ str ∈ t'.delimiters.keys := fun str hstr =>
    ⟨InternTable.keys_mono h.terminals hstr.1, (h.delims str).mpr (.inl hstr.2)⟩
  unfold Covers at hx ⊢
  split at hx
  · exact hboth _ hx
  · exact fun str hstr => InternTable.keys_mono h.regexes (hx str hstr)
  · exact fun str hstr => hboth str (hx str hstr)
  · exact InternTable.keys_mono h.terminals hx
  · trivial

theorem getRegex_mono {rt rt' : FklRegexTable} (h : rt ≤ rt') {re : Option Nat}
    (hre : ∀ a, re = some a → a < rt.keys.length) :
    fklGetStringWithRegex rt' re = fklGetStringWithRegex rt re := by
  cases re with
  | none => rfl
  | some a =>
    have ha : rt.keys[a]? = some _ := List.getElem?_eq_getElem (hre a rfl)
    simp only [fklGetStringWithRegex, Option.bind_some]
    rw [InternTable.getElem?_mono h ha, ha]

theorem Extends.text (h : Extends ds t t') (hs : t.HasSym s) :
    s.text t'.regexes = s.text t.regexes := by
  cases s with
  | term s =>
    cases s with
    | regex re =>
      simp only [FklGrammerSym.text, FklGrammerIgnoreSym.text, getRegex_mono h.regexes hs]
    | _ => rfl
  | _ => rfl

/-! Comparison. -/

theorem builtinSymEqual_iff {b0 b1 : FklLalrBuiltinGrammerSym} :
    fklBuiltinGrammerSymEqual b0 b1 = true ↔
      b0.t = b1.t ∧ b0.args.map (·.key) = b1.args.map (·.key) := by
  have hargs := arrayEqual_iff (e := fun a b : FklString => fklStringEqual a.key b.key)
    (a := b0.args) (b := b1.args) fun a _ b _ => fklStringEqual_iff
  rw [fklBuiltinGrammerSymEqual, Bool.and_eq_true, beq_iff_eq, hargs]

theorem regex_iff {rt : FklRegexTable} {re re' : Option Nat}
    (h : ∀ a, re = some a → a < rt.keys.length) (h' : ∀ a, re' = some a → a < rt.keys.length) :
    re = re' ↔ fklGetStringWithRegex rt re = fklGetStringWithRegex rt re' := by
  refine ⟨fun he => he ▸ rfl, fun he => ?_⟩
  cases re with
  | none =>
    cases re' with
    | none => rfl
    | some a' => simp [fklGetStringWithRegex, List.getElem?_eq_getElem (h' a' rfl)] at he
  | some a =>
    have ha : rt.keys[a]? = some _ := List.getElem?_eq_getElem (h a rfl)
    cases re' with
    | none => simp [fklGetStringWithRegex, ha] at he
    | some a' =>
      simp only [fklGetStringWithRegex, Option.bind_some] at he
      rw [InternTable.addr_inj ha (he ▸ ha)]

theorem ignoreSymEqual_iff {x y : FklGrammerIgnoreSym} (hx : t.HasSym (.term x))
    (hy : t.HasSym (.term y)) :
    ignoreSymEqual x y = true ↔ x.text t.regexes = y.text t.regexes := by
  cases x with
  | string str =>
    cases y with
    | string str' =>
      simpa [ignoreSymEqual, FklGrammerIgnoreSym.text] using InternTable.addr_eq_iff hx hy
    | _ => simp [ignoreSymEqual, FklGrammerIgnoreSym.text]
  | regex re =>
    cases y with
    | regex re' => simpa [ignoreSymEqual, FklGrammerIgnoreSym.text] using regex_iff hx hy
    | _ => simp [ignoreSymEqual, FklGrammerIgnoreSym.text]
  | builtin b =>
    cases y with
    | builtin b' => simp [ignoreSymEqual, FklGrammerIgnoreSym.text, builtinSymEqual_iff]
    | _ => simp [ignoreSymEqual, FklGrammerIgnoreSym.text]

theorem prodSymEqual_iff (hs : t.HasSym s) (hs' : t.HasSym s') :
    prodSymEqual s s' = true ↔ s.text t.regexes = s'.text t.regexes := by
  cases s with
  | term x =>
    cases s' with
    | term y => simpa [prodSymEqual, FklGrammerSym.text] using ignoreSymEqual_iff hs hs'
    | _ => simp [prodSymEqual, FklGrammerSym.text]
  | keyword str =>
    cases s' with
    | keyword str' =>
      simpa [prodSymEqual, FklGrammerSym.text] using InternTable.addr_eq_iff hs hs'
    | _ => simp [prodSymEqual, FklGrammerSym.text]
  | _ => cases s' <;> simp [prodSymEqual, FklGrammerSym.text]

/-! The merge of symbols. -/

/-- The symbols `ss'` in the tables `t'` are what has become of the symbols `ss`, whose regular
expressions are from the table `rt`. -/
structure Copies (E : GrammerEnv) (rt : FklRegexTable) (t : SymTables) (ss : List FklGrammerSym)
    (t' : SymTables) (ss' : List FklGrammerSym) : Prop where
  extends_ : Extends (ss.flatMap (·.delims)) t t'
  has : ∀ s ∈ ss', t'.HasSym s
  text : ss'.map (·.text t'.regexes) = ss.map (·.text rt)
  covers : ∀ s ∈ ss, t'.Covers (s.text rt)
  same : (∀ s ∈ ss, t.Covers (s.text rt)) → t' = t
  compiles : (∀ k ∈ t.regexes.keys, E.compiles k = true) →
    ∀ k ∈ t'.regexes.keys, E.compiles k = true

variable {rt : FklRegexTable}

theorem Copies.nil (t : SymTables) : Copies E rt t [] t [] where
  extends_ := Extends.refl t
  has := by simp
  text := rfl
  covers := by simp
  same _ := rfl
  compiles := id

theorem Copies.append {as as' : List FklGrammerSym} (h : Copies E rt t ss t' ss')
    (h' : Copies E rt t' as t'' as') : Copies E rt t (ss ++ as) t'' (ss' ++ as') where
  extends_ := by
    rw [List.flatMap_append]
    exact h.extends_.trans h'.extends_
  has s hs := (List.mem_append.mp hs).elim (fun hs => h'.extends_.hasSym (h.has s hs)) (h'.has s)
  text := by
    have hold : ss'.map (·.text t''.regexes) = ss'.map (·.text t'.regexes) :=
      List.map_congr_left fun s hs => h'.extends_.text (h.has s hs)
    rw [List.map_append, List.map_append, hold, h.text, h'.text]
  covers s hs := (List.mem_append.mp hs).elim (fun hs => h'.extends_.covers (h.covers s hs))
    (h'.covers s)
  same hc := by
    have ht : t' = t := h.same fun s hs => hc s (List.mem_append_left as hs)
    subst ht
    exact h'.same fun s hs => hc s (List.mem_append_right ss hs)
  compiles hc := h'.compiles (h.compiles hc)

theorem addDelimiter_extends (t : SymTables) (k : List UInt8) :
    Extends [k] t (t.addDelimiter k).1 where
  terminals := t.terminals.le_add k
  regexes := le_rfl
  delims d := by simp [addDelimiter, fklAddString]

theorem addDelimiter_same {k : List UInt8} (hk : k ∈ t.terminals.keys ∧ k ∈ t.delimiters.keys) :
    (t.addDelimiter k).1 = t := by
  simp [addDelimiter, fklAddString, InternTable.add_of_mem hk.1, InternTable.add_of_mem hk.2]

theorem addDelimiter_covers (t : SymTables) (k : List UInt8) :
    k ∈ (t.addDelimiter k).1.terminals.keys ∧ k ∈ (t.addDelimiter k).1.delimiters.keys := by
  simp [addDelimiter, fklAddString]

theorem mergeArgs_extends (t : SymTables) (args : List FklString) :
    Extends (args.map (·.key)) t (t.mergeArgs args).1 := by
  induction args generalizing t with
  | nil => exact Extends.refl t
  | cons a args ih => exact (t.addDelimiter_extends a.key).trans (ih _)

theorem mergeArgs_regexes (t : SymTables) (args : List FklString) :
    (t.mergeArgs args).1.regexes = t.regexes := by
  induction args generalizing t with
  | nil => rfl
  | cons a args ih => exact ih _

theorem mergeArgs_same {args : List FklString}
    (h : ∀ a ∈ args, a.key ∈ t.terminals.keys ∧ a.key ∈ t.delimiters.keys) :
    (t.mergeArgs args).1 = t := by
  induction args with
  | nil => rfl
  | cons a args ih =>
    simp only [mergeArgs, addDelimiter_same (h a List.mem_cons_self)]
    exact ih fun b hb => h b (List.mem_cons_of_mem a hb)

theorem mergeArgs_covers (t : SymTables) (args : List FklString) : ∀ a ∈ args,
    a.key ∈ (t.mergeArgs args).1.terminals.keys ∧
      a.key ∈ (t.mergeArgs args).1.delimiters.keys := by
  induction args generalizing t with
  | nil => simp
  | cons a args ih =>
    have hext := mergeArgs_extends (t.addDelimiter a.key).1 args
    obtain ⟨hterm, hdelim⟩ := t.addDelimiter_covers a.key
    intro b hb
    rcases List.mem_cons.mp hb with rfl | hb
    · exact ⟨InternTable.keys_mono hext.terminals hterm, (hext.delims _).mpr (.inl hdelim)⟩
    · exact ih _ b hb

theorem mergeArgs_strs (t : SymTables) (args : List FklString) :
    (t.mergeArgs args).2.map (·.key) = args.map (·.key) ∧
      ∀ str ∈ (t.mergeArgs args).2, str ∈ (t.mergeArgs args).1.terminals := by
  induction args generalizing t with
  | nil => exact ⟨rfl, by simp [mergeArgs]⟩
  | cons a args ih =>
    obtain ⟨hkeys, hmem⟩ := ih (t.addDelimiter a.key).1
    have hext := mergeArgs_extends (t.addDelimiter a.key).1 args
    refine ⟨?_, fun str hstr => ?_⟩
    · simp only [mergeArgs, List.map_cons, hkeys]
      exact congrArg (· :: _) (InternTable.add_key _ _)
    · rcases List.mem_cons.mp hstr with rfl | hstr
      · exact InternTable.mem_mono hext.terminals (InternTable.add_mem _ _)
      · exact hmem str hstr

theorem addRegexStr_eq {compiles : List UInt8 → Bool} {k : List UInt8} (hk : compiles k = true) :
    fklAddRegexStr compiles rt k = ((rt.add k).1, some (rt.add k).2.addr) := by
  simp [fklAddRegexStr, hk]

theorem getRegex_mem {re : Option Nat} {k : List UInt8} (h : fklGetStringWithRegex rt re = some k) :
    k ∈ rt.keys := by
  obtain ⟨a, -, ha⟩ := Option.bind_eq_some_iff.mp h
  exact List.mem_of_getElem? ha

theorem string_copies (t : SymTables) (rt : FklRegexTable) (str : FklString) :
    Copies E rt t [.term (.string str)] (t.addDelimiter str.key).1
      [.term (.string (t.addDelimiter str.key).2)] where
  extends_ := t.addDelimiter_extends str.key
  has := by
    simpa [HasSym, addDelimiter, fklAddString] using InternTable.add_mem t.terminals str.key
  text := by
    simpa [FklGrammerSym.text, FklGrammerIgnoreSym.text, addDelimiter, fklAddString] using
      InternTable.add_key t.terminals str.key
  covers := by simpa [FklGrammerSym.text, FklGrammerIgnoreSym.text, Covers] using
    t.addDelimiter_covers str.key
  same hc := addDelimiter_same (hc _ List.mem_cons_self)
  compiles := id

theorem regex_copies (hrt : ∀ k ∈ rt.keys, E.compiles k = true) {re : Option Nat}
    {k : List UInt8} (hk : fklGetStringWithRegex rt re = some k) :
    Copies E rt t [.term (.regex re)] { t with regexes := (t.regexes.add k).1 }
      [.term (.regex (some (t.regexes.add k).2.addr))] where
  extends_ := ⟨le_rfl, t.regexes.le_add k, by simp [FklGrammerSym.delims]⟩
  has s hs := by
    obtain rfl := List.mem_singleton.mp hs
    intro a ha
    obtain rfl := Option.some.inj ha
    have hmem := InternTable.mem_def.mp (t.regexes.add_mem k)
    exact (List.getElem?_eq_some_iff.mp hmem).1
  text := by
    have hmem := InternTable.mem_def.mp (t.regexes.add_mem k)
    rw [InternTable.add_key] at hmem
    have hget : fklGetStringWithRegex (t.regexes.add k).1 (some (t.regexes.add k).2.addr) =
        some k := hmem
    simp [FklGrammerSym.text, FklGrammerIgnoreSym.text, hk, hget]
  covers := by simp [FklGrammerSym.text, FklGrammerIgnoreSym.text, Covers, hk]
  same hc := by
    have hmem : k ∈ t.regexes.keys := hc _ List.mem_cons_self k hk
    rw [InternTable.add_of_mem hmem]
  compiles hc k' hk' := by
    rcases InternTable.mem_keys_add.mp hk' with hk' | rfl
    · exact hc k' hk'
    · exact hrt k' (getRegex_mem hk)

theorem builtin_copies (t : SymTables) (rt : FklRegexTable) {b : FklLalrBuiltinGrammerSym}
    (hb : fklBuiltinTermArgsCheck b.t b.args.length = .dummy) :
    Copies E rt t [.term (.builtin b)] (t.mergeArgs b.args).1
      [.term (.builtin ⟨b.t, (t.mergeArgs b.args).2⟩)] where
  extends_ := by simpa [FklGrammerSym.delims] using t.mergeArgs_extends b.args
  has s hs := by
    obtain rfl := List.mem_singleton.mp hs
    have hlen := congrArg List.length (t.mergeArgs_strs b.args).1
    rw [List.length_map, List.length_map] at hlen
    exact ⟨(t.mergeArgs_strs b.args).2, hlen ▸ hb⟩
  text := by
    simpa [FklGrammerSym.text, FklGrammerIgnoreSym.text] using (t.mergeArgs_strs b.args).1
  covers s hs := by
    obtain rfl := List.mem_singleton.mp hs
    intro str hstr
    obtain ⟨a, ha, rfl⟩ := List.mem_map.mp hstr
    exact t.mergeArgs_covers b.args a ha
  same hc := mergeArgs_same fun a ha =>
    hc _ List.mem_cons_self a.key (List.mem_map_of_mem ha)
  compiles hc := by rwa [mergeArgs_regexes]

theorem mergeIgnoreSym_copies (hrt : ∀ k ∈ rt.keys, E.compiles k = true)
    {x x' : FklGrammerIgnoreSym} (h : t.mergeIgnoreSym E rt x = some (t', x')) :
    Copies E rt t [.term x] t' [.term x'] := by
  cases x with
  | string str =>
    obtain ⟨rfl, rfl⟩ := Prod.mk.inj (Option.some.inj h)
    exact string_copies t rt str
  | regex re =>
    obtain ⟨k, hk, h⟩ := Option.bind_eq_some_iff.mp h
    rw [addRegexStr_eq (hrt k (getRegex_mem hk))] at h
    obtain ⟨rfl, rfl⟩ := Prod.mk.inj (Option.some.inj h)
    exact regex_copies hrt hk
  | builtin b =>
    simp only [mergeIgnoreSym] at h
    split at h
    · rename_i hb
      obtain ⟨rfl, rfl⟩ := Prod.mk.inj (Option.some.inj h)
      exact builtin_copies t rt hb
    · cases h

theorem keyword_copies (t : SymTables) (rt : FklRegexTable) (str : FklString) :
    Copies E rt t [.keyword str] { t with terminals := (t.terminals.add str.key).1 }
      [.keyword (t.terminals.add str.key).2] where
  extends_ := ⟨t.terminals.le_add str.key, le_rfl, by simp [FklGrammerSym.delims]⟩
  has := by simpa [HasSym] using InternTable.add_mem t.terminals str.key
  text := by simpa [FklGrammerSym.text] using InternTable.add_key t.terminals str.key
  covers := by simp [FklGrammerSym.text, Covers]
  same hc := by
    have hmem : str.key ∈ t.terminals.keys := hc _ List.mem_cons_self
    rw [InternTable.add_of_mem hmem]
  compiles := id

/-- The symbols that are taken over as they are. -/
theorem plain_copies (t : SymTables) (rt : FklRegexTable) (hd : s.delims = [])
    (hs : ∀ t : SymTables, t.HasSym s) (ht : ∀ rt', s.text rt' = s.text rt)
    (hc : t.Covers (s.text rt)) : Copies E rt t [s] t [s] where
  extends_ := by simpa [hd] using Extends.refl t
  has := by simpa using hs t
  text := by simpa using ht t.regexes
  covers := by simpa using hc
  same _ := rfl
  compiles := id

theorem mergeProdSym_copies (hrt : ∀ k ∈ rt.keys, E.compiles k = true)
    (h : t.mergeProdSym E rt s = some (t', s')) : Copies E rt t [s] t' [s'] := by
  cases s with
  | term x =>
    obtain ⟨⟨t₁, x'⟩, hx, h⟩ := Option.bind_eq_some_iff.mp h
    obtain ⟨rfl, rfl⟩ := Prod.mk.inj (Option.some.inj h)
    exact mergeIgnoreSym_copies hrt hx
  | keyword str =>
    obtain ⟨rfl, rfl⟩ := Prod.mk.inj (Option.some.inj h)
    exact keyword_copies t rt str
  | _ =>
    obtain ⟨rfl, rfl⟩ := Prod.mk.inj (Option.some.inj h)
    exact plain_copies t rt rfl (fun _ => trivial) (fun _ => rfl) trivial

theorem mergeAll_copies {α : Type} {merge : SymTables → α → Option (SymTables × α)}
    (f : α → FklGrammerSym)
    (hmerge : ∀ {t a t' a'}, merge t a = some (t', a') → Copies E rt t [f a] t' [f a'])
    {as as' : List α} (h : t.mergeAll merge as = some (t', as')) :
    Copies E rt t (as.map f) t' (as'.map f) := by
  induction as generalizing t as' with
  | nil =>
    obtain ⟨rfl, rfl⟩ := Prod.mk.inj (Option.some.inj h)
    exact Copies.nil t
  | cons a as ih =>
    obtain ⟨⟨t₁, a'⟩, ha, h⟩ := Option.bind_eq_some_iff.mp h
    obtain ⟨⟨t₂, as₂⟩, has, h⟩ := Option.bind_eq_some_iff.mp h
    obtain ⟨rfl, rfl⟩ := Prod.mk.inj (Option.some.inj h)
    exact (hmerge ha).append (ih has)

/-! What the merge of a symbol does not survive. -/

def NullRegex : FklGrammerSym → Prop
  | .term (.regex re) => re = none
  | _ => False

theorem mergeIgnoreSym_eq_none_iff {fr : SymTables} {x : FklGrammerIgnoreSym}
    (hx : fr.HasSym (.term x)) :
    t.mergeIgnoreSym E fr.regexes x = none ↔ NullRegex (.term x) := by
  cases x with
  | string str => simp [mergeIgnoreSym, NullRegex]
  | regex re =>
    cases re with
    | none => simp [mergeIgnoreSym, NullRegex, fklGetStringWithRegex]
    | some a =>
      have ha := List.getElem?_eq_getElem (hx a rfl)
      simp [mergeIgnoreSym, NullRegex, fklGetStringWithRegex, ha]
  | builtin b => simp [mergeIgnoreSym, NullRegex, hx.2]

theorem mergeProdSym_eq_none_iff {fr : SymTables} (hs : fr.HasSym s) :
    t.mergeProdSym E fr.regexes s = none ↔ NullRegex s := by
  cases s with
  | term x =>
    rw [← mergeIgnoreSym_eq_none_iff (t := t) (E := E) hs]
    cases hx : t.mergeIgnoreSym E fr.regexes x <;> simp [mergeProdSym, hx]
  | _ => simp [mergeProdSym, NullRegex]

theorem mergeAll_eq_none_iff {α : Type} {merge : SymTables → α → Option (SymTables × α)}
    {bad : α → Prop} {as : List α} (h : ∀ t, ∀ a ∈ as, merge t a = none ↔ bad a) :
    t.mergeAll merge as = none ↔ ∃ a ∈ as, bad a := by
  induction as generalizing t with
  | nil => simp [mergeAll]
  | cons a as ih =>
    have ha := h t a List.mem_cons_self
    have has := fun t => ih (t := t) fun t b hb => h t b (List.mem_cons_of_mem a hb)
    simp only [List.exists_mem_cons_iff, ← ha]
    cases hm : merge t a with
    | none => simp [mergeAll, hm]
    | some r =>
      rw [← has r.1]
      cases hr : r.1.mergeAll merge as <;> simp [mergeAll, hm, hr]

end SymTables

end FakeLisp.GrammerTables
