import HahaDogOps.Entrypoint.NginxMarks
/-!
# Do the edits of `nginx.conf` respect its blocks?

What the edits of `entrypoint.sh:121-129` are after: each server block listens on `NGX_PORT` only, has the
location of the group, and the rest of the file is as it was (`RespectsBlocks`). The edits look at lines, so
this depends on the template: `Tidy` says on what, in terms of the template's marks.

- `blocks_filter_iff`: the blocks of the result against the blocks of the marks (`Lib/Nest.lean`)
- `totalWeight_marks`: a token that is dropped and is no `listen` directive is missed
- `nginx_edits_respect_blocks`: the templates that are edited well
-/

namespace HahaDog.Entrypoint

open Shell Nginx

/-! ## What the edits are after -/

def serverArgs : List Text := ["server".toList]

/-- The tokens of a template and of the result: in order, nothing but `listen` directives gone, nothing but
the one directive and the one block added. -/
inductive Edited (port group : Text) : List Token → List Token → Prop
  | nil : Edited port group [] []
  | keep {t ts us} : Edited port group ts us → Edited port group (t :: ts) (t :: us)
  | drop {t ts us} : isListen t = true → Edited port group ts us → Edited port group (t :: ts) us
  | listen {ts us} : Edited port group ts us → Edited port group ts (listenToken port :: us)
  | location {ts us} : Edited port group ts us → Edited port group ts (locationTokens group ++ us)

/-- The edits did what they are for: every server block has the one `listen` directive and the one location
directly in it, and no other block has either. -/
structure RespectsBlocks (port group : Text) (ts us : List Token) : Prop where
  edited : Edited port group ts us
  listen : ∀ b ∈ blocks us, b.2.filter isListen = if b.1 = serverArgs then [listenToken port] else []
  location : ∀ b ∈ blocks us, b.2.filter (· = locationToken group) =
    if b.1 = serverArgs then [locationToken group] else []

/-- A location whose path ends in `/M00`. -/
def isStoreLocation : Token → Bool
  | .blockStart (w :: args) => w == locationName && storeEnd.isSuffixOf (args.getLastD [])
  | _ => false

/-- A configuration without backslashes and with tokens `ts`, in which no location has a path in `/M00`. -/
structure WellFormed (t : Text) (ts : List Token) : Prop where
  noBackslash : '\\' ∉ t
  terminated : t.getLast? = some '\n'
  parses : confParse t = some ts
  server : .blockStart serverArgs ∈ ts
  noStore : ∀ t ∈ ts, isStoreLocation t = false

/-! ## The blocks of the marks -/

namespace Mark

/-- What of the result stands directly in the block the mark is in. -/
def direct (port group : Text) : Mark → List Token
  | .location => [locationToken group]
  | m => m.result port group

/-- The block that an added location is. -/
def closed (group : Text) : Mark → List (List Text × List Token)
  | .location => [([locationName, locationPath group], locationBody)]
  | _ => []

def shape : Mark → Nest.Shape (List Text)
  | .keep t => Nginx.shape t
  | _ => .inner

end Mark

/-- Every block of the marks with what stands directly in it, the whole file included. -/
def markBlocks (ms : List Mark) : List (List Text × List Mark) :=
  Nest.blocks Mark.shape [([], [])] (ms ++ [.keep .blockDone])

/-! ## The templates that are edited well -/

/-- The copy loop loses nothing but blanks, and the edits cut nothing in two: what is dropped, and what
stands before and behind an added piece, are whole directives. -/
structure CutWell (t : Text) : Prop where
  nulFree : NulFree t
  noOption : ∀ l ∈ lines t, echoOption (stripBlanks l) = false
  aligned : Aligned .init .init (lines t)

/-- Besides, only `listen` directives are dropped, and every server block has one place for the directive
and one for the location directly in it, and no other block has either. -/
structure Tidy (t : Text) : Prop extends CutWell t where
  dropped : ∀ e, Mark.drop e ∈ marks .init (lines t) → isListen e = true
  listen : ∀ b ∈ markBlocks (marks .init (lines t)), b.2.count .listen = if b.1 = serverArgs then 1 else 0
  location : ∀ b ∈ markBlocks (marks .init (lines t)), b.2.count .location = if b.1 = serverArgs then 1 else 0

/-- No directive spans lines. -/
def OneLine (t : Text) : Prop := ∀ l ∈ lines t, (readTokens .init (l ++ ['\n'])).1 = .init

/-! ## Blocks of the result -/

section
variable (port group : Text)

theorem balanced_locationTokens : Nest.Balanced Nginx.shape (locationTokens group) [locationToken group]
    [([locationName, locationPath group], locationBody)] := by
  have hbody : Nest.Balanced Nginx.shape locationBody locationBody [] :=
    Nest.Balanced.append (Nest.Balanced.inner rfl) (Nest.Balanced.inner rfl)
  have hopen : Nginx.shape (locationToken group) = .opens [locationName, locationPath group] := rfl
  have hdone : Nginx.shape .blockDone = .closes := rfl
  exact Nest.Balanced.block hopen hdone hbody

theorem replaced_result (m : Mark) :
    Nest.Replaced Mark.shape Nginx.shape m (m.result port group) (m.direct port group) (m.closed group) := by
  cases m with
  | keep t =>
    cases t with
    | ok args => exact .inner rfl (.inner rfl)
    | blockStart args => exact .outer rfl (by simp [Mark.shape, Nginx.shape])
    | blockDone => exact .outer rfl (by simp [Mark.shape, Nginx.shape])
  | drop t => exact .inner rfl .nil
  | listen => exact .inner rfl (.inner rfl)
  | location => exact .inner rfl (balanced_locationTokens group)

/-- Dropped `listen` directives close and open nothing. -/
theorem replaced_original {m : Mark} (h : ∀ t, m = .drop t → isListen t = true) :
    Nest.Replaced Mark.shape Nginx.shape m m.original m.original [] := by
  cases m with
  | keep t =>
    cases t with
    | ok args => exact .inner rfl (.inner rfl)
    | blockStart args => exact .outer rfl (by simp [Mark.shape, Nginx.shape])
    | blockDone => exact .outer rfl (by simp [Mark.shape, Nginx.shape])
  | drop t =>
    have ht := h t rfl
    cases t with
    | ok args => exact .inner rfl (.inner rfl)
    | blockStart args => cases ht
    | blockDone => cases ht
  | listen => exact .inner rfl .nil
  | location => exact .inner rfl .nil

theorem edited_marks : ∀ {ms : List Mark}, (∀ t, Mark.drop t ∈ ms → isListen t = true) →
    Edited port group (ms.flatMap Mark.original) (ms.flatMap (Mark.result port group))
  | [], _ => .nil
  | m :: ms, h => by
    have ih := edited_marks fun t ht => h t (List.mem_cons_of_mem m ht)
    cases m with
    | keep t => exact .keep ih
    | drop t => exact .drop (h t List.mem_cons_self) ih
    | listen => exact .listen ih
    | location => exact .location ih

end

/-- One directive at a time: where `m` puts `t`, and nothing else has `P`, the count of `m` is that of `P`. -/
theorem filter_direct {port group : Text} {P : Token → Bool} {m : Mark} {t : Token} (hm : m.direct port group = [t])
    (ht : P t = true) : ∀ {ms : List Mark}, (∀ x ∈ ms, x ≠ m → (x.direct port group).filter P = []) →
    (ms.flatMap (Mark.direct port group)).filter P = List.replicate (ms.count m) t
  | [], _ => rfl
  | x :: ms, h => by
    have ih := filter_direct hm ht fun y hy => h y (List.mem_cons_of_mem x hy)
    rw [List.flatMap_cons, List.filter_append, ih]
    by_cases hx : x = m
    · rw [hx, List.count_cons_self, List.replicate_succ, hm]
      simp [ht]
    · rw [List.count_cons_of_ne hx, h x (by simp) hx, List.nil_append]

theorem replicate_eq_ite {α : Type*} {p : Prop} [Decidable p] {n : Nat} {x : α} :
    List.replicate n x = (if p then [x] else []) ↔ n = if p then 1 else 0 := by
  constructor
  · intro h
    have := congrArg List.length h
    rw [List.length_replicate] at this
    rw [this]
    split <;> rfl
  · rintro rfl
    split <;> rfl

/-- **The blocks of the result have what they should iff the marks are where they should be.** -/
theorem blocks_filter_iff {port group : Text} {P : Token → Bool} {m : Mark} {t : Token}
    (hm : m.direct port group = [t]) (ht : P t = true) (hbody : locationBody.filter P = []) {ms : List Mark}
    (h : ∀ x ∈ ms ++ [Mark.keep .blockDone], x ≠ m → (x.direct port group).filter P = []) :
    (∀ b ∈ blocks (ms.flatMap (Mark.result port group)), b.2.filter P = if b.1 = serverArgs then [t] else []) ↔
      ∀ b ∈ markBlocks ms, b.2.count m = if b.1 = serverArgs then 1 else 0 := by
  have hrep : ∀ x ∈ ms ++ [Mark.keep .blockDone], Nest.Replaced Mark.shape Nginx.shape x (x.result port group)
      (x.direct port group) (x.closed group) := fun x _ => replaced_result port group x
  have hblocks : blocks (ms.flatMap (Mark.result port group)) = Nest.blocks Nginx.shape
      ([([], [])].map (Nest.mapBlock (Mark.direct port group)))
      ((ms ++ [Mark.keep .blockDone]).flatMap (Mark.result port group)) := by
    rw [List.flatMap_append]; rfl
  -- a block of the marks and its image
  have hblock : ∀ p ∈ markBlocks ms, (Nest.mapBlock (Mark.direct port group) p).2.filter P =
      List.replicate (p.2.count m) t := by
    intro p hp
    refine filter_direct hm ht fun x hx => h x ?_
    rcases Nest.mem_of_mem_blocks hp x hx with hx | ⟨q, hq, hx⟩
    · exact hx
    · rw [List.mem_singleton.1 hq] at hx
      cases hx
  rw [hblocks]
  constructor
  · intro hb p hp
    have := hb _ (Nest.mapBlock_mem_blocks hrep _ p hp)
    rw [hblock p hp] at this
    exact replicate_eq_ite.1 this
  · intro hc b hb
    rcases Nest.mem_blocks_flatMap hrep _ b hb with ⟨x, -, hx⟩ | ⟨p, hp, rfl⟩
    · cases x with
      | location =>
        rw [List.mem_singleton.1 hx, hbody]
        rfl
      | keep t => cases hx
      | drop t => cases hx
      | listen => cases hx
    · rw [hblock p hp]
      exact replicate_eq_ite.2 (hc p hp)

/-! ## Only `listen` directives may be dropped -/

/-- What a token counts for when the added ones are to count for nothing. -/
def weight (group : Text) (t : Token) : Int :=
  (if isListen t then 0 else 1) - if t = locationToken group then 4 else 0

/-- What the marks' tokens count for together. -/
def totalWeight (group : Text) (ts : List Token) : Int := (ts.map (weight group)).sum

section
variable (port group : Text)

@[simp] theorem totalWeight_cons (t : Token) (ts : List Token) :
    totalWeight group (t :: ts) = weight group t + totalWeight group ts := by simp [totalWeight]

theorem totalWeight_append (ts us : List Token) :
    totalWeight group (ts ++ us) = totalWeight group ts + totalWeight group us := by simp [totalWeight]

theorem weight_listen {t : Token} (h : isListen t = true) : weight group t = 0 := by
  have hne : t ≠ locationToken group := by
    rintro rfl
    cases h
  simp [weight, h, hne]

theorem weight_other {t : Token} (h : isListen t = false) (hne : t ≠ locationToken group) : weight group t = 1 := by
  simp [weight, h, hne]

theorem isListen_listenToken : isListen (listenToken port) = true := by simp [listenToken, isListen]

theorem totalWeight_locationTokens : totalWeight group (locationTokens group) = 0 := by
  have hopen : weight group (locationToken group) = -3 := by simp [weight, locationToken, isListen]
  have hroot : weight group (.ok ["root".toList, "/fastdfs/store_path/data".toList]) = 1 :=
    weight_other group (by decide) nofun
  have hmodule : weight group (.ok ["ngx_fastdfs_module".toList]) = 1 := weight_other group (by decide) nofun
  have hdone : weight group .blockDone = 1 := weight_other group rfl nofun
  rw [locationTokens, locationBody, List.cons_append, List.cons_append, List.cons_append, List.nil_append,
    totalWeight_cons, totalWeight_cons, totalWeight_cons, totalWeight_cons, hopen, hroot, hmodule, hdone]
  rfl

theorem totalWeight_edited {ts us : List Token} (h : Edited port group ts us) :
    totalWeight group us = totalWeight group ts := by
  induction h with
  | nil => rfl
  | keep _ ih => rw [totalWeight_cons, totalWeight_cons, ih]
  | drop hl _ ih => rw [totalWeight_cons, weight_listen group hl, ih, zero_add]
  | listen _ ih => rw [totalWeight_cons, weight_listen group (isListen_listenToken port), ih, zero_add]
  | location _ ih => rw [totalWeight_append, totalWeight_locationTokens, ih, zero_add]

/-- A dropped token that is no `listen` directive is missed. -/
theorem totalWeight_mark {m : Mark} (h : ∀ t, m = .drop t → t ≠ locationToken group) :
    totalWeight group (m.result port group) ≤ totalWeight group m.original ∧
      (totalWeight group (m.result port group) = totalWeight group m.original → ∀ t, m = .drop t → isListen t = true) := by
  have hnil : totalWeight group [] = 0 := rfl
  cases m with
  | keep t => exact ⟨le_refl _, fun _ _ ht => by cases ht⟩
  | drop t =>
    simp only [Mark.result, Mark.original, totalWeight_cons, hnil]
    cases ht : isListen t with
    | true =>
      rw [weight_listen group ht]
      exact ⟨le_refl _, fun _ u hu => by cases hu; exact ht⟩
    | false =>
      rw [weight_other group ht (h t rfl)]
      exact ⟨by omega, fun hsum => absurd hsum (by omega)⟩
  | listen =>
    simp only [Mark.result, Mark.original, totalWeight_cons, hnil, weight_listen group (isListen_listenToken port)]
    exact ⟨le_refl _, fun _ _ ht => by cases ht⟩
  | location =>
    simp only [Mark.result, Mark.original, totalWeight_locationTokens, hnil]
    exact ⟨le_refl _, fun _ _ ht => by cases ht⟩

theorem totalWeight_marks : ∀ {ms : List Mark}, (∀ t, Mark.drop t ∈ ms → t ≠ locationToken group) →
    totalWeight group (ms.flatMap (Mark.result port group)) ≤ totalWeight group (ms.flatMap Mark.original) ∧
      (totalWeight group (ms.flatMap (Mark.result port group)) = totalWeight group (ms.flatMap Mark.original) →
        ∀ t, Mark.drop t ∈ ms → isListen t = true)
  | [], _ => ⟨le_refl _, fun _ _ ht => by cases ht⟩
  | m :: ms, h => by
    obtain ⟨hle, heq⟩ := totalWeight_marks fun t ht => h t (List.mem_cons_of_mem m ht)
    obtain ⟨hle', heq'⟩ := totalWeight_mark port group fun t ht => h t (ht ▸ List.mem_cons_self)
    simp only [List.flatMap_cons, totalWeight_append, List.mem_cons]
    refine ⟨by omega, fun hsum t ht => ?_⟩
    rcases ht with ht | ht
    · exact heq' (by omega) t ht.symm
    · exact heq (by omega) t ht

end

/-! ## When the edits respect the blocks -/

/-- `GROUP_NAME`, or `group1` when it is unset. -/
def givenGroup (env : Env) : Text := (env.groupName.map Word.text).getD "group1".toList

theorem locationGroup_eq_givenGroup {env : Env} (hg : ∀ w ∈ env.groupName, w.Alnum) :
    locationGroup env = givenGroup env := by
  unfold givenGroup
  cases hgn : env.groupName with
  | none => rw [locationGroup, hgn]; rfl
  | some w => rw [locationGroup_some hgn (hg w hgn)]; rfl

theorem alnum_givenGroup {env : Env} (hg : ∀ w ∈ env.groupName, w.Alnum) :
    ∀ c ∈ givenGroup env, c.isAlphanum = true := by
  unfold givenGroup
  cases hgn : env.groupName with
  | none => decide
  | some w => exact hg w hgn

/-- The file parses, and its tokens are those of the template edited as they should be. -/
def EditedWell (file : Option Text) (port group : Text) (ts : List Token) : Prop :=
  ∃ us, confParse (file.getD []) = some us ∧ RespectsBlocks port group ts us

section
variable {t : Text} {ts : List Token} (h : WellFormed t ts)

include h

theorem WellFormed.eq_unlines : t = unlines (lines t) :=
  Lines.eq_joined_of_cut '\n' ((Lines.cut_snd_eq_nil_iff '\n' t).2 (.inr h.terminated))

theorem WellFormed.copied (hc : CutWell t) : Copied t := ⟨hc.nulFree, h.noBackslash, .inr h.terminated, hc.noOption⟩

theorem WellFormed.marks_original : (marks .init (lines t)).flatMap Mark.original = ts := by
  rw [Entrypoint.marks_original, ← h.eq_unlines]
  exact (confParse_eq_some.1 h.parses).2.1

theorem WellFormed.ne_locationToken {e : Token} (he : e ∈ ts) (group : Text) : e ≠ locationToken group := by
  rintro rfl
  have hstore : isStoreLocation (locationToken group) = true := by
    have hsuf : storeEnd <:+ locationPath group := ⟨'/' :: group, by simp [locationPath]⟩
    simpa [isStoreLocation, locationToken] using hsuf
  rw [h.noStore _ he] at hstore
  cases hstore

/-- What is kept is in the template and is no `listen` directive. -/
theorem WellFormed.keep {e : Token} (ha : Aligned .init .init (lines t)) (he : .keep e ∈ marks .init (lines t)) :
    e ∈ ts ∧ isListen e = false := by
  constructor
  · rw [← h.marks_original]
    exact List.mem_flatMap.2 ⟨_, he, List.mem_singleton_self e⟩
  · refine not_isListen_of_keep (lines t) _ _ ha ⟨by simp [Lexer.init], by simp [Lexer.init], .inr (List.nil_suffix)⟩ ?_ e he
    intro l hl hm
    exact h.noBackslash (Lines.mem_of_mem_pieces '\n' hl hm)

section
variable (ha : Aligned .init .init (lines t)) (port group : Text)

include ha

theorem WellFormed.listen_iff :
    (∀ b ∈ blocks ((marks .init (lines t)).flatMap (Mark.result port group)),
      b.2.filter isListen = if b.1 = serverArgs then [listenToken port] else []) ↔
    ∀ b ∈ markBlocks (marks .init (lines t)), b.2.count .listen = if b.1 = serverArgs then 1 else 0 := by
  refine blocks_filter_iff rfl (isListen_listenToken port) (by decide) fun x hx hne => ?_
  cases x with
  | keep e =>
    have he : isListen e = false := by
      rcases List.mem_append.1 hx with hx | hx
      · exact (h.keep ha hx).2
      · cases List.mem_singleton.1 hx; rfl
    simp [Mark.direct, Mark.result, he]
  | drop e => rfl
  | listen => exact absurd rfl hne
  | location => rfl

theorem WellFormed.location_iff :
    (∀ b ∈ blocks ((marks .init (lines t)).flatMap (Mark.result port group)),
      b.2.filter (· = locationToken group) = if b.1 = serverArgs then [locationToken group] else []) ↔
    ∀ b ∈ markBlocks (marks .init (lines t)), b.2.count .location = if b.1 = serverArgs then 1 else 0 := by
  refine blocks_filter_iff (P := (· = locationToken group)) rfl (by simp) ?_ fun x hx hne => ?_
  · simp [locationBody, locationToken]
  cases x with
  | keep e =>
    have he : e ≠ locationToken group := by
      rcases List.mem_append.1 hx with hx | hx
      · exact h.ne_locationToken (h.keep ha hx).1 group
      · cases List.mem_singleton.1 hx; nofun
    simp [Mark.direct, Mark.result, he]
  | drop e => rfl
  | listen => simp [Mark.direct, Mark.result, listenToken, locationToken]
  | location => exact absurd rfl hne

end

end

theorem OneLine.noOption {t : Text} (h : OneLine t) : ∀ l ∈ lines t, echoOption (stripBlanks l) = false := by
  intro l hl
  by_contra ho
  rw [Bool.not_eq_false] at ho
  have hplain : ∀ c ∈ "-neE".toList, isPlain c = true := by decide
  have hw : PlainWord (stripBlanks l) := by
    refine ⟨fun h0 => ?_, fun c hc => hplain c ?_⟩
    · rw [h0] at ho
      cases ho
    by_contra hn
    exact not_mem_of_echoOption ho hn hc
  exact hw.readLine_ne_init (h l hl)

theorem aligned_of_oneLine : ∀ {ls : List Text}, (∀ l ∈ ls, (readTokens .init (l ++ ['\n'])).1 = .init) →
    Aligned .init .init ls
  | [], _ => rfl
  | l :: ls, h => by
    have hl := h l (by simp)
    have ih := aligned_of_oneLine fun m hm => h m (List.mem_cons_of_mem l hm)
    rw [Aligned, hl]
    split
    · exact ih
    · exact ⟨⟨rfl, readTokens_stripBlanks hl, fun _ => rfl, fun _ => hl⟩, ih⟩

/-- A template in which no directive spans lines is cut well. -/
theorem OneLine.cutWell {t : Text} (h : OneLine t) (hn : NulFree t) : CutWell t :=
  ⟨hn, h.noOption, aligned_of_oneLine h⟩

/-- **The edits of `nginx.conf` respect the blocks of every tidy template**, and of no other one that is cut
well. (Where a directive is cut in two, what is left of it may by accident be what was dropped elsewhere.) -/
theorem nginx_edits_respect_blocks (sed : Sed.TextArg) (env : Env) (t : Templates) (f : Files) {port : Word}
    {ts : List Token} (hn : env.ngxPort = some port) (hp : port.Numeric) (hg : ∀ w ∈ env.groupName, w.Alnum)
    (ht : WellFormed t.nginx ts) :
    (Tidy t.nginx → EditedWell (start sed .storage env t f).nginx port.text (givenGroup env) ts) ∧
    (CutWell t.nginx → EditedWell (start sed .storage env t f).nginx port.text (givenGroup env) ts → Tidy t.nginx) := by
  have hga := alnum_givenGroup hg
  -- the tokens of the result
  have hresult : CutWell t.nginx → readTokens .init ((start sed .storage env t f).nginx.getD []) =
      ((readTokens .init t.nginx).1,
        (marks .init (lines t.nginx)).flatMap (Mark.result port.text (givenGroup env))) := by
    intro hc
    rw [start_nginx_lines sed hn hp hg (ht.copied hc), locationGroup_eq_givenGroup hg,
      readTokens_edited hp hga _ _ _ hc.aligned, ← ht.eq_unlines]
  obtain ⟨hdone, -, hnest⟩ := confParse_eq_some.1 ht.parses
  constructor
  · intro h
    have hres := hresult h.toCutWell
    refine ⟨_, confParse_eq_some.2 ⟨by rw [hres]; exact hdone, rfl, ?_⟩, ?_⟩
    · rw [hres, Nest.nest_flatMap fun m _ => replaced_result port.text (givenGroup env) m, ← hnest, ← ht.marks_original,
        Nest.nest_flatMap fun m hm => replaced_original fun e he => h.dropped e (he ▸ hm)]
    · rw [hres]
      refine ⟨?_, (ht.listen_iff h.aligned _ _).2 h.listen, (ht.location_iff h.aligned _ _).2 h.location⟩
      have hed := edited_marks port.text (givenGroup env) h.dropped
      rwa [ht.marks_original] at hed
  · rintro hc ⟨us, hparse, hr⟩
    obtain ⟨-, hus, -⟩ := confParse_eq_some.1 hparse
    rw [hresult hc] at hus
    obtain rfl := hus
    refine ⟨hc, ?_, (ht.listen_iff hc.aligned _ _).1 hr.listen, (ht.location_iff hc.aligned _ _).1 hr.location⟩
    have hw := totalWeight_edited _ _ hr.edited
    rw [← ht.marks_original] at hw
    refine (totalWeight_marks port.text (givenGroup env) fun e he => ?_).2 hw
    refine ht.ne_locationToken ?_ _
    rw [← ht.marks_original]
    exact List.mem_flatMap.2 ⟨_, he, List.mem_singleton_self e⟩

/-- One server block with the name `name`, in a template with three other files left empty. -/
def oneServer (name : Text) : Templates where
  tracker := []
  storage := []
  modFastdfs := []
  nginx := "http \x7b\n  server \x7b\n    listen 80;\n    server_name  ".toList ++ name ++ ";\n  \x7d\n\x7d\n".toList

def oneServerTokens (name : Text) : List Token :=
  [.blockStart ["http".toList], .blockStart serverArgs, .ok ["listen".toList, "80".toList],
    .ok ["server_name".toList, name], .blockDone, .blockDone]

theorem oneServer_localhost_edited_well :
    (∀ w ∈ some groupWord, w.Alnum) ∧ portWord.Numeric ∧
    WellFormed (oneServer "localhost".toList).nginx (oneServerTokens "localhost".toList) ∧
    Tidy (oneServer "localhost".toList).nginx ∧
    EditedWell (start .basic .storage ⟨none, none, some portWord, some groupWord⟩ (oneServer "localhost".toList)
      ⟨none, none, none, none⟩).nginx portWord.text "group2".toList (oneServerTokens "localhost".toList) := by
  have hg : ∀ w ∈ some groupWord, w.Alnum := by rintro w h; cases h; decide
  have hp : portWord.Numeric := by decide
  have ht : WellFormed (oneServer "localhost".toList).nginx (oneServerTokens "localhost".toList) :=
    ⟨by decide, by decide, by decide +kernel, by decide, by decide⟩
  have hdropped : (marks .init (lines (oneServer "localhost".toList).nginx)).all (fun
    | .drop e => isListen e
    | _ => true) = true := by decide
  have hone : OneLine (oneServer "localhost".toList).nginx := by unfold OneLine; decide
  have htidy : Tidy (oneServer "localhost".toList).nginx :=
    ⟨hone.cutWell (by decide), fun e he => List.all_eq_true.1 hdropped _ he, by decide, by decide⟩
  exact ⟨hg, hp, ht, htidy, (nginx_edits_respect_blocks .basic ⟨none, none, some portWord, some groupWord⟩
    (oneServer "localhost".toList) ⟨none, none, none, none⟩ rfl hp hg ht).1 htidy⟩

/-- A server with another name loses its `listen` directive and gets no new one. -/
theorem oneServer_other_name_loses_listen :
    WellFormed (oneServer "example".toList).nginx (oneServerTokens "example".toList) ∧ portWord.Numeric ∧
    ¬ EditedWell (start .basic .storage ⟨none, none, some portWord, none⟩ (oneServer "example".toList)
      ⟨none, none, none, none⟩).nginx portWord.text "group1".toList (oneServerTokens "example".toList) := by
  refine ⟨⟨by decide, by decide, by decide +kernel, by decide, by decide⟩, by decide, ?_⟩
  rintro ⟨us, hparse, hr⟩
  have hus : confParse ((start .basic .storage ⟨none, none, some portWord, none⟩ (oneServer "example".toList)
      ⟨none, none, none, none⟩).nginx.getD []) = some ([.blockStart ["http".toList], .blockStart serverArgs] ++
        locationTokens "group1".toList ++ [.ok ["server_name".toList, "example".toList], .blockDone, .blockDone]) := by
    decide +kernel
  rw [hus] at hparse
  obtain rfl := Option.some.inj hparse
  have hlisten := hr.listen (serverArgs, [locationToken "group1".toList, .ok ["server_name".toList, "example".toList]])
    (by decide)
  exact absurd hlisten (by decide)

end HahaDog.Entrypoint
