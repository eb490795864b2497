import CxlShm.EraInvariant

/-! # EraSteps — every access keeps the era invariant

One lemma per kind of access. The loads and a failed compare-exchange move only the program counter
(`EraInv.silent`); the other accesses change one word, one era cell or one log line each.
-/

namespace CxlShm

open Transition SlotCount

section Steps

variable {W : RefWorld} {lent : Finset Nat} {s s' : EraSys} {i : Nat} {c : RefCall}

/-! ## §1 — gluing the parts -/

theorem EraSys.pub_congr {k : Nat} (hc : s'.client k = s.client k) (he : s'.eras k = s.eras k) :
    s'.pub k = s.pub k := by
  unfold EraSys.pub
  rw [hc, he]

theorem EraSys.pend_congr {k o : Nat} (hc : s'.client k = s.client k) : s'.pend k o = s.pend k o := by
  unfold EraSys.pend
  rw [hc]

/-- **The step rule.** Client `i` answers for itself, the others are covered by `Rely`. -/
theorem EraInv.of_step (h : EraInv W lent s) {lent' : Finset Nat}
    (hlent : ∀ j, j ≠ i → (j ∈ lent' ↔ j ∈ lent))
    (hrely : ∀ j ∈ W.ids, j ≠ i → Rely W j s s')
    (hredo : ∀ j ∈ W.ids, j ≠ i → ∀ k, s'.shm.redo j k = s.shm.redo j k)
    (hown : i ∈ W.ids → ClientOk W (i ∈ lent') s' i) (hlog : i ∈ W.ids → LogOk W s' i)
    (hera : ∀ j ∈ W.ids, s'.shm.era j j = s'.eras j ∧ 0 < s'.eras j)
    (hbelow : ∀ k : Int, k < -1 → s'.shm.eraCell k = 0)
    (hinfo : ∀ o ∈ W.objs, InfoOk W s' (s'.shm.refInfo o))
    (hseen : ∀ k ∈ W.ids, ∀ j, Col j → j ≠ k → s'.shm.era j k < s'.pub k)
    (hacct : ∀ j ∈ W.ids, ∀ o ∈ W.objs,
      s'.net j o = (holding (W.slots j) s'.shm.word o : Int) + s'.pend j o)
    (hcount : ∀ o ∈ W.objs, (s'.shm.refCnt o : Int) = ∑ k ∈ W.ids, s'.net k o) :
    EraInv W lent' s' := by
  refine ⟨?_, ?_, hera, hbelow, hinfo, hseen, hacct, hcount⟩
  · intro j hj
    by_cases hji : j = i
    · subst hji
      exact hown hj
    · have := (h.clients j hj).stable (W.col hj) (hrely j hj hji) (h.log j hj).refed_mem
      rwa [← propext (hlent j hji)] at this
  · intro j hj
    by_cases hji : j = i
    · subst hji
      exact hlog hj
    · have hl := h.log j hj
      unfold LogOk at *
      rw [(hrely j hj hji).logged]
      simp only [hredo j hj hji]
      exact hl

/-! ## §2 — accesses that move only the program counter -/

def EraSys.setClient (s : EraSys) (i : Nat) (x : Option (RefCall × RefPc)) : EraSys :=
  { s with client := Function.update s.client i x }

/-- The compare-exchange of this call has succeeded and its era is not bumped yet. -/
def RefPc.published : RefPc → Prop
  | .storeRef _ => True
  | .bumpEra _ => True
  | _ => False

theorem EraSys.pub_of_not_published {s : EraSys} {i : Nat}
    (h : ∀ c pc, s.client i = some (c, pc) → ¬ pc.published) : s.pub i = s.eras i := by
  unfold EraSys.pub
  split
  · rename_i c info hcl
    exact absurd trivial (h c _ hcl)
  · rename_i c info hcl
    exact absurd trivial (h c _ hcl)
  · rfl

theorem EraSys.pend_of_not_published {s : EraSys} {i : Nat}
    (h : ∀ c pc, s.client i = some (c, pc) → ¬ pc.published) (o : Nat) : s.pend i o = 0 := by
  unfold EraSys.pend
  split
  · rename_i c info hcl
    exact absurd trivial (h c _ hcl)
  · rfl

section SetClient

variable {x : Option (RefCall × RefPc)}
  (hold : ∀ d pc, s.client i = some (d, pc) → ¬ pc.published)
  (hnew : ∀ d pc, x = some (d, pc) → ¬ pc.published)
include hold hnew

theorem EraSys.pub_setClient (k : Nat) : (s.setClient i x).pub k = s.pub k := by
  by_cases hki : k = i
  · subst hki
    rw [EraSys.pub_of_not_published hold, EraSys.pub_of_not_published]
    · rfl
    · intro d pc hd
      exact hnew d pc (by simpa [EraSys.setClient] using hd)
  · exact EraSys.pub_congr (by simp [EraSys.setClient, hki]) rfl

theorem EraSys.pend_setClient (k o : Nat) : (s.setClient i x).pend k o = s.pend k o := by
  by_cases hki : k = i
  · subst hki
    rw [EraSys.pend_of_not_published hold, EraSys.pend_of_not_published]
    intro d pc hd
    exact hnew d pc (by simpa [EraSys.setClient] using hd)
  · exact EraSys.pend_congr (by simp [EraSys.setClient, hki])

/-- **Silent steps.** Moving client `i` between points outside the published window keeps the
invariant as soon as the new point's own clause holds. -/
theorem EraInv.silent (h : EraInv W lent s)
    (hown : i ∈ W.ids → ClientOk W (i ∈ lent) (s.setClient i x) i) :
    EraInv W lent (s.setClient i x) := by
  refine h.of_step (fun _ _ => Iff.rfl) ?_ (fun _ _ _ _ => rfl) hown ?_ h.era_eq h.below ?_ ?_ ?_ h.count
  · intro j _ hji
    exact ⟨by simp [EraSys.setClient, hji], rfl, rfl, fun _ _ => rfl,
      fun k _ => Nat.le_of_eq (EraSys.pub_setClient hold hnew k).symm, fun _ _ _ => Nat.le_refl _,
      fun _ _ => rfl, fun _ _ => Or.inl rfl⟩
  · intro hi
    exact h.log i hi
  · intro o ho
    exact (h.info o ho).mono fun k _ => Nat.le_of_eq (EraSys.pub_setClient hold hnew k).symm
  · intro k hk j hj hjk
    rw [EraSys.pub_setClient hold hnew]
    exact h.seen_lt k hk j hj hjk
  · intro j hj o ho
    rw [EraSys.pend_setClient hold hnew]
    exact h.acct j hj o ho

end SetClient

/-- The clauses of a point outside the published window read only what `setClient` keeps. -/
theorem AtPc.setClient {pc : RefPc} {x : Option (RefCall × RefPc)} {p : Prop}
    (hpub : ∀ k, (s.setClient i x).pub k = s.pub k) (h : AtPc W p s i c pc) :
    AtPc W p (s.setClient i x) i c pc := by
  have hok : ∀ info, InfoOk W s info → InfoOk W (s.setClient i x) info := fun info hinfo =>
    hinfo.mono fun k _ => Nat.le_of_eq (hpub k).symm
  have hcomp : ∀ l : Logged, l.Complete W p s i → l.Complete W p (s.setClient i x) i := fun l hl =>
    hl.congr (Nat.le_refl _) (fun _ _ => rfl) fun _ ho => ho
  have hpend : Pending W p s i c → Pending W p (s.setClient i x) i c := fun hp =>
    ⟨hp.1, fun l hl => (hp.2 l hl).imp id (hcomp l)⟩
  cases pc with
  | loadEra info => exact ⟨hpend h.1, hok _ h.2.1, h.2.2⟩
  | loadEle info cur => exact ⟨hpend h.1, hok _ h.2.1, h.2.2⟩
  | storeEle info cur => exact ⟨hpend h.1, hok _ h.2.1, h.2.2⟩
  | storeRedo info cur => exact ⟨hpend h.1, hok _ h.2.1, h.2.2⟩
  | loadInfo => exact hpend h
  | cas info cur => exact h
  | storeRef info => exact h
  | bumpEra info => exact h
  | wipe k => exact ⟨fun l hl => hcomp l (h.1 l hl), h.2⟩
  | done => exact h

/-! ## §3 — the accesses that write -/

/-- One cell of the matrix is stored to. -/
theorem era_storeEra {m : Shm} {x y l v : Nat} (hl : l ≤ maxThread) (hy : Col y) :
    (m.storeEra i l v).era x y = if x = i ∧ y = l then v else m.era x y := by
  by_cases h : x = i ∧ y = l
  · rw [if_pos h, h.1, h.2, Shm.era_storeEra_self]
  · rw [if_neg h, Shm.era_storeEra_of_ne]
    intro hidx
    rcases Nat.eq_zero_or_pos l with h0 | h0
    · subst h0
      exact eraIdx_zero_ne hy.1 hy.2 hidx.symm
    · exact h (eraIdx_inj hy.1 h0 (Nat.le_of_lt hy.2) hl hidx)

/-- `*ele = saw_era`. -/
theorem EraInv.storeEle (h : EraInv W lent s) (hi : i ∈ W.ids) {info cur : Nat}
    (hcl : s.client i = some (c, .storeEle info cur))
    (hs' : s' = { s.setClient i (some (c, c.afterEle info cur)) with
      shm := s.shm.storeEra i (getLcidFromInfo info) (getLenumFromInfo info) }) : EraInv W lent s' := by
  have hown := h.clients i hi
  unfold ClientOk at hown
  rw [hcl] at hown
  obtain ⟨href, hrefed, hpend, hok, hlive, hcur, hlt⟩ := hown
  have hold : ∀ d pc, s.client i = some (d, pc) → ¬ pc.published := by
    intro d pc hd
    rw [hcl] at hd
    cases hd
    exact id
  have hnew : ∀ d pc, some (c, c.afterEle info cur) = some (d, pc) → ¬ pc.published := by
    intro d pc hd
    cases hd
    unfold RefCall.afterEle
    cases c.func <;> exact id
  have hpub : ∀ k, s'.pub k = s.pub k := by
    intro k
    rw [hs']
    exact EraSys.pub_setClient hold hnew k
  have hera : ∀ x y, Col y → s'.shm.era x y =
      if x = i ∧ y = getLcidFromInfo info then getLenumFromInfo info else s.shm.era x y := by
    intro x y hy
    rw [hs']
    exact era_storeEra hok.1 hy
  have hmono : ∀ x y, Col y → s.shm.era x y ≤ s'.shm.era x y := by
    intro x y hy
    rw [hera x y hy]
    split
    · rename_i hxy
      rw [hxy.1, hxy.2]
      rw [hxy.2] at hy
      exact Nat.le_of_lt (hlt hy)
    · exact Nat.le_refl _
  -- the own era is never the cell stored to: stamps of `i` carry older eras
  have hdiag : ¬ (getLcidFromInfo info = i) := by
    intro hid
    have h1 := hok.2 (hid ▸ hi)
    have h2 := hlt (hid ▸ W.col hi)
    rw [hid, EraSys.pub_of_not_published hold] at h1
    rw [hid, (h.era_eq i hi).1] at h2
    omega
  refine h.of_step (i := i) (fun _ _ => Iff.rfl) ?_ ?_ ?_ ?_ ?_ ?_ ?_ ?_ ?_ ?_
  · intro j _ hji
    refine ⟨by simp [hs', EraSys.setClient, hji], by rw [hs']; rfl, by rw [hs']; rfl,
      fun a _ => by rw [hs']; rfl, fun k _ => Nat.le_of_eq (hpub k).symm, hmono, ?_,
      fun o _ => Or.inl (by rw [hs']; rfl)⟩
    intro y hy
    rw [hera j y hy, if_neg fun hxy => hji hxy.1]
  · intro j _ _ k
    rw [hs']
    rfl
  · intro _
    have hpend' : Pending W (i ∈ lent) s' i c := by
      refine ⟨by rw [hs']; exact hpend.1, ?_⟩
      intro l hl
      have hl' : s.logged i = some l := by
        rw [← hl, hs']
        rfl
      have heras : s'.eras i = s.eras i := by
        rw [hs']
        rfl
      rw [heras]
      refine (hpend.2 l hl').imp id fun hc => ?_
      refine hc.congr (Nat.le_of_eq heras.symm) (fun a _ => by rw [hs']; rfl) fun _ ho => ?_
      rcases ho with ⟨hid, hen⟩ | ⟨k, hk, hki, hle⟩
      · left
        rw [hs']
        exact ⟨hid, hen⟩
      · exact Or.inr ⟨k, hk, hki, Nat.le_trans hle (hmono k i (W.col hi))⟩
    have hok' : InfoOk W s' info := hok.mono fun k _ => Nat.le_of_eq (hpub k).symm
    have hseen' : Seen s' i info := by
      intro hcol
      rw [hera i _ hcol, if_pos ⟨rfl, rfl⟩]
    have heras : s'.eras i = s.eras i := by
      rw [hs']
      rfl
    have hcl' : s'.client i = some (c, c.afterEle info cur) := by simp [hs', EraSys.setClient]
    unfold ClientOk
    rw [hcl']
    refine ⟨href, hrefed, ?_⟩
    unfold RefCall.afterEle
    cases hf : c.func with
    | linkRef => exact ⟨hpend', hok', hlive, hseen', by rw [heras]; exact hcur hf⟩
    | unlinkRef => exact ⟨hpend', hok', hlive, fun _ => hseen'⟩
  · intro hi
    have hl := h.log i hi
    rw [hs']
    exact hl
  · intro j hj
    have heras : s'.eras j = s.eras j := by
      rw [hs']
      rfl
    rw [hera j j (W.col hj), if_neg, heras]
    · exact h.era_eq j hj
    · intro hji
      exact hdiag (hji.2.symm.trans hji.1)
  · intro k hk
    rw [hs']
    show Function.update s.shm.eraCell _ _ k = 0
    rw [Function.update_of_ne, h.below k hk]
    have := (W.ids_range i hi).1
    simp only [Shm.eraIdx, maxThread]
    omega
  · intro o ho
    rw [show s'.shm.refInfo o = s.shm.refInfo o by rw [hs']; rfl]
    exact (h.info o ho).mono fun k _ => Nat.le_of_eq (hpub k).symm
  · intro k hk j hj hjk
    rw [hera j k (W.col hk), hpub]
    split
    · rename_i hjk'
      rw [hjk'.2]
      exact hok.2 (hjk'.2 ▸ hk)
    · exact h.seen_lt k hk j hj hjk
  · intro j hj o ho
    have hpe : s'.pend j o = s.pend j o := by
      rw [hs']
      exact EraSys.pend_setClient hold hnew j o
    rw [hpe, hs']
    exact h.acct j hj o ho
  · intro o ho
    rw [hs']
    exact h.count o ho

/-- The store of the log line. -/
theorem EraInv.storeRedo (h : EraInv W lent s) (hi : i ∈ W.ids) {info cur : Nat}
    (hcl : s.client i = some (c, .storeRedo info cur))
    (hs' : s' = { s.setClient i (some (c, .cas info cur)) with
      shm := s.shm.storeRedo i (cur % redoCachelineCnt) (c.line info cur)
      logged := Function.update s.logged i (some ⟨c, cur, false⟩) }) : EraInv W (lent.erase i) s' := by
  have hown := h.clients i hi
  unfold ClientOk at hown
  rw [hcl] at hown
  obtain ⟨href, hrefed, hpend, hok, hlive, hseen, hcur⟩ := hown
  have hold : ∀ d pc, s.client i = some (d, pc) → ¬ pc.published := by
    intro d pc hd
    rw [hcl] at hd
    cases hd
    exact id
  have hnew : ∀ d pc, some (c, RefPc.cas info cur) = some (d, pc) → ¬ pc.published := by
    intro d pc hd
    cases hd
    exact id
  have hpub : ∀ k, s'.pub k = s.pub k := by
    intro k
    rw [hs']
    exact EraSys.pub_setClient hold hnew k
  have hlogged : s'.logged i = some ⟨c, cur, false⟩ := by simp [hs']
  refine h.of_step (i := i) (fun j hji => by simp [hji]) ?_ ?_ ?_ ?_ ?_ ?_ ?_ ?_ ?_ ?_
  · intro j _ hji
    exact ⟨by simp [hs', EraSys.setClient, hji], by simp [hs', hji], by rw [hs']; rfl,
      fun a _ => by rw [hs']; rfl, fun k _ => Nat.le_of_eq (hpub k).symm,
      fun x y _ => by rw [hs']; exact Nat.le_refl _, fun y _ => by rw [hs']; rfl,
      fun o _ => Or.inl (by rw [hs']; rfl)⟩
  · intro j _ hji k
    rw [hs']
    exact Shm.redo_storeRedo_of_ne _ _ (Or.inl hji)
  · intro _
    have hcl' : s'.client i = some (c, .cas info cur) := by simp [hs', EraSys.setClient]
    have heras : s'.eras i = s.eras i := by
      rw [hs']
      rfl
    unfold ClientOk
    rw [hcl']
    refine ⟨href, hrefed, ?_, ?_, hlive, ?_, ?_⟩
    · rw [hs']
      exact hpend.1
    · rw [hlogged, heras, hcur]
    · rw [hs']
      exact hseen
    · rw [heras, hcur]
  · intro _
    have hpos : 0 < cur := hcur ▸ (h.era_eq i hi).2
    have hk : cur % redoCachelineCnt < redoCachelineCnt := Nat.mod_lt _ (by decide)
    have hredo : ∀ k, k ≠ cur % redoCachelineCnt → s'.shm.redo i k = s.shm.redo i k := by
      intro k hne
      rw [hs']
      exact Shm.redo_storeRedo_of_ne _ _ (Or.inr hne)
    unfold LogOk
    rw [hlogged]
    refine ⟨hrefed, hpos, ⟨info, ?_⟩, ?_⟩
    · rw [hs']
      exact Shm.redo_storeRedo_self ..
    · intro k hk8 (hne : k ≠ cur % redoCachelineCnt)
      rw [hredo k hne]
      show (s.shm.redo i k).curEra < cur
      have hl := h.log i hi
      unfold LogOk at hl
      cases hlo : s.logged i with
      | none =>
        rw [hlo] at hl
        rw [hl k hk8]
        exact hpos
      | some l =>
        rw [hlo] at hl
        obtain ⟨-, -, ⟨info', hline⟩, hother⟩ := hl
        -- the previous entry is an attempt of this era or a complete, older operation
        rcases hpend.2 l hlo with hl' | ⟨-, hlt, -, -⟩
        · have hera : l.era = cur := by rw [hl', hcur]
          have := hother k hk8 (by rw [hera]; exact hne)
          omega
        · by_cases hkl : k = l.era % redoCachelineCnt
          · rw [hkl, hline, hcur]
            exact hlt
          · have := hother k hk8 hkl
            omega
  · intro j hj
    rw [hs']
    exact h.era_eq j hj
  · intro k hk
    rw [hs']
    exact h.below k hk
  · intro o ho
    rw [show s'.shm.refInfo o = s.shm.refInfo o by rw [hs']; rfl]
    exact (h.info o ho).mono fun k _ => Nat.le_of_eq (hpub k).symm
  · intro k hk j hj hjk
    rw [hpub, show s'.shm.era j k = s.shm.era j k by rw [hs']; rfl]
    exact h.seen_lt k hk j hj hjk
  · intro j hj o ho
    have hpe : s'.pend j o = s.pend j o := by
      rw [hs']
      exact EraSys.pend_setClient hold hnew j o
    rw [hpe, hs']
    exact h.acct j hj o ho
  · intro o ho
    rw [hs']
    exact h.count o ho

/-- One compare-exchange moves the total by what it adds. -/
theorem sum_net_update {ids : Finset Nat} (net : Nat → Nat → Int) (hi : i ∈ ids) (r o : Nat)
    (d : Int) :
    ∑ k ∈ ids, Function.update net i (Function.update (net i) r (net i r + d)) k o =
      (∑ k ∈ ids, net k o) + if r = o then d else 0 := by
  rw [← Finset.add_sum_erase ids _ hi, ← Finset.add_sum_erase ids (fun k => net k o) hi,
    Function.update_self]
  have hrest : ∑ k ∈ ids.erase i, Function.update net i
      (Function.update (net i) r (net i r + d)) k o = ∑ k ∈ ids.erase i, net k o := by
    refine Finset.sum_congr rfl fun k hk => ?_
    rw [Function.update_of_ne (Finset.ne_of_mem_erase hk)]
  rw [hrest]
  by_cases hro : r = o
  · subst hro
    rw [Function.update_self, if_pos rfl]
    ring
  · rw [Function.update_of_ne (Ne.symm hro), if_neg hro]
    ring

/-- The count a successful compare-exchange installs is the old one plus its contribution, and it
fits its field. -/
theorem EraInv.newCnt (h : EraInv W lent s) (hi : i ∈ W.ids) {info cur : Nat}
    (hcl : s.client i = some (c, .cas info cur)) (hsame : s.shm.refInfo c.refed = info)
    (hroom : (∑ k ∈ W.ids, s.net k c.refed) + c.delta < 2 ^ 16) :
    (c.newCnt (getRefCntFromInfo info) : Int) = getRefCntFromInfo info + c.delta ∧
      c.newCnt (getRefCntFromInfo info) < 2 ^ 16 ∧ getRefCntFromInfo info ≠ 0 := by
  have hown := h.clients i hi
  unfold ClientOk at hown
  rw [hcl] at hown
  obtain ⟨href, hrefed, hbef, -, hlive, -, -⟩ := hown
  have hcount := h.count _ hrefed
  have hcnt : s.shm.refCnt c.refed = getRefCntFromInfo info := by
    unfold Shm.refCnt
    rw [hsame]
  have hlt := getRefCntFromInfo_lt info
  cases hf : c.func with
  | linkRef =>
    have hne := hlive hf
    simp only [RefCall.newCnt, RefCall.delta, hf] at *
    omega
  | unlinkRef =>
    have hword : s.shm.word c.ref = c.refed := by rw [hbef, RefCall.before, hf]
    have hp : s.pend i (s.shm.word c.ref) = 0 :=
      EraSys.pend_of_not_published (by
        intro d pc hd
        rw [hcl] at hd
        cases hd
        exact id) _
    have hpos := h.refCnt_pos hi href (hword ▸ hrefed) hp
    rw [hword] at hpos
    simp only [RefCall.newCnt, RefCall.delta, hf] at *
    omega

/-- A successful compare-exchange. -/
theorem EraInv.cas (h : EraInv W lent s) (hi : i ∈ W.ids) {info cur : Nat}
    (hcl : s.client i = some (c, .cas info cur)) (hsame : s.shm.refInfo c.refed = info)
    (hs' : s' = { s.setClient i (some (c, .storeRef info)) with
      shm := s.shm.store (c.refed + 8) (c.stamp i info cur)
      logged := Function.update s.logged i (some ⟨c, cur, true⟩)
      net := Function.update s.net i
        (Function.update (s.net i) c.refed (s.net i c.refed + c.delta)) })
    (hroom : EraRoom W s) (hroom' : EraRoom W s') : EraInv W lent s' := by
  have hown := h.clients i hi
  unfold ClientOk at hown
  rw [hcl] at hown
  obtain ⟨href, hrefed, hbef, hlog, hlive, hseen, hcur⟩ := hown
  have hsum : ∀ o, ∑ k ∈ W.ids, s'.net k o =
      (∑ k ∈ W.ids, s.net k o) + if c.refed = o then c.delta else 0 := by
    intro o
    rw [hs']
    exact sum_net_update s.net hi c.refed o c.delta
  obtain ⟨hnew, hnewlt, hcnt0⟩ := h.newCnt hi hcl hsame (by
    have := hroom'.2 _ hrefed
    rwa [hsum, if_pos rfl] at this)
  have hcur32 : cur < 2 ^ 32 := hcur ▸ hroom.1 i hi
  have hi16 : i < 2 ^ 16 := Nat.lt_of_lt_of_le (W.ids_range i hi).2 (by decide)
  have hcnt : s.shm.refCnt c.refed = getRefCntFromInfo info := by
    unfold Shm.refCnt
    rw [hsame]
  -- the new stamp, and the untouched ones
  have hinfo_self : s'.shm.refInfo c.refed = c.stamp i info cur := by
    rw [hs']
    exact Function.update_self ..
  have hinfo_ne : ∀ o, o ≠ c.refed → s'.shm.refInfo o = s.shm.refInfo o := by
    intro o hne
    rw [hs']
    exact Function.update_of_ne (by omega) ..
  have hlcid : getLcidFromInfo (c.stamp i info cur) = i := getLcidFromInfo_pack hi16 hnewlt hcur32
  have hlenum : getLenumFromInfo (c.stamp i info cur) = cur := getLenumFromInfo_pack hi16 hnewlt hcur32
  have hcntnew : getRefCntFromInfo (c.stamp i info cur) = c.newCnt (getRefCntFromInfo info) :=
    getRefCntFromInfo_pack hi16 hnewlt hcur32
  have hslot : ∀ j, ∀ a ∈ W.slots j, s'.shm.word a = s.shm.word a := by
    intro j a ha
    rw [hs']
    refine Function.update_of_ne ?_ ..
    rintro rfl
    exact (W.header_not_slot _ hrefed j).2.1 ha
  have hera : ∀ x y, s'.shm.era x y = s.shm.era x y := by
    intro x y
    rw [hs']
    rfl
  have heras : s'.eras = s.eras := by
    rw [hs']
    rfl
  have hcl' : s'.client i = some (c, .storeRef info) := by simp [hs', EraSys.setClient]
  have hcl_ne : ∀ j, j ≠ i → s'.client j = s.client j := by
    intro j hji
    simp [hs', EraSys.setClient, hji]
  have hpub_self : s.pub i = s.eras i ∧ s'.pub i = s.eras i + 1 := by
    unfold EraSys.pub
    rw [hcl, hcl', heras]
    exact ⟨rfl, rfl⟩
  have hpub_ne : ∀ k, k ≠ i → s'.pub k = s.pub k := fun k hki =>
    EraSys.pub_congr (hcl_ne k hki) (by rw [heras])
  have hpub : ∀ k, s.pub k ≤ s'.pub k := by
    intro k
    by_cases hki : k = i
    · subst hki
      omega
    · exact Nat.le_of_eq (hpub_ne k hki).symm
  have hlogged : s'.logged i = some ⟨c, cur, true⟩ := by simp [hs']
  refine h.of_step (i := i) (fun _ _ => Iff.rfl) ?_ ?_ ?_ ?_ ?_ ?_ ?_ ?_ ?_ ?_
  · intro j hj hji
    refine ⟨hcl_ne j hji, by simp [hs', hji], by rw [heras], hslot j, fun k _ => hpub k,
      fun x y _ => Nat.le_of_eq (hera x y).symm, fun y _ => hera j y, ?_⟩
    intro o ho
    by_cases hoc : o = c.refed
    · subst hoc
      right
      refine ⟨?_, ?_⟩
      · -- `i` recorded the era it is overwriting
        intro hid
        refine ⟨i, W.col hi, Ne.symm hji, ?_⟩
        rw [hsame] at hid ⊢
        rw [hera, ← hid]
        exact hseen (hid ▸ W.col hj)
      · intro hd
        exact hcnt0 (hcnt ▸ hd.1)
    · exact Or.inl (hinfo_ne o hoc)
  · intro j _ _ k
    rw [hs']
    rfl
  · intro _
    unfold ClientOk
    rw [hcl']
    refine ⟨href, hrefed, ?_, ?_, ?_, ?_⟩
    · rw [hslot i _ href]
      exact hbef
    · rw [hlogged, heras, hcur]
    · left
      rw [hinfo_self, hlcid, hlenum, heras]
      exact ⟨rfl, hcur⟩
    · intro hf h1
      refine ⟨?_, ?_⟩
      · unfold Shm.refCnt
        rw [hinfo_self, hcntnew, RefCall.newCnt, hf, h1]
        rfl
      · rw [hinfo_self, hlcid]
  · intro hi
    have hl := h.log i hi
    unfold LogOk at *
    rw [hlog] at hl
    rw [hlogged, hcur, hs']
    exact hl
  · intro j hj
    rw [hera, heras]
    exact h.era_eq j hj
  · intro k hk
    rw [hs']
    exact h.below k hk
  · intro o ho
    by_cases hoc : o = c.refed
    · subst hoc
      rw [hinfo_self]
      unfold InfoOk
      rw [hlcid, hlenum, hpub_self.2, hcur]
      exact ⟨Nat.le_of_lt (W.ids_range i hi).2, fun _ => Nat.lt_succ_self _⟩
    · rw [hinfo_ne o hoc]
      exact (h.info o ho).mono fun k _ => hpub k
  · intro k hk j hj hjk
    rw [hera]
    exact Nat.lt_of_lt_of_le (h.seen_lt k hk j hj hjk) (hpub k)
  · intro j hj o ho
    have hhold : holding (W.slots j) s'.shm.word o = holding (W.slots j) s.shm.word o :=
      holding_congr o (hslot j)
    have hacct := h.acct j hj o ho
    rw [hhold]
    by_cases hji : j = i
    · subst hji
      have hp : s.pend j o = 0 := by
        unfold EraSys.pend
        rw [hcl]
      have hp' : s'.pend j o = if c.refed = o then c.delta else 0 := by
        unfold EraSys.pend
        rw [hcl']
      have hnet : s'.net j o = s.net j o + if c.refed = o then c.delta else 0 := by
        rw [hs']
        show Function.update s.net j _ j o = _
        rw [Function.update_self]
        by_cases hro : c.refed = o
        · rw [if_pos hro, ← hro, Function.update_self]
        · rw [if_neg hro, Function.update_of_ne (Ne.symm hro), Int.add_zero]
      rw [hp', hnet, hacct, hp]
      ring
    · have hnet : s'.net j o = s.net j o := by
        rw [hs']
        show Function.update s.net i _ j o = _
        rw [Function.update_of_ne hji]
      rw [hnet, hacct, EraSys.pend_congr (hcl_ne j hji)]
  · intro o ho
    rw [hsum]
    by_cases hoc : o = c.refed
    · subst hoc
      have hc := h.count _ hrefed
      rw [if_pos rfl, ← hc, hcnt]
      unfold Shm.refCnt
      rw [hinfo_self, hcntnew, hnew]
    · rw [if_neg (Ne.symm hoc), Int.add_zero, ← h.count o ho]
      unfold Shm.refCnt
      rw [hinfo_ne o hoc]

/-- `_ref = _refed`, or `_ref = 0`. -/
theorem EraInv.storeRef (h : EraInv W lent s) (hi : i ∈ W.ids) {info : Nat}
    (hcl : s.client i = some (c, .storeRef info))
    (hs' : s' = { s.setClient i (some (c, .bumpEra info)) with
      shm := s.shm.store c.ref c.target }) : EraInv W lent s' := by
  have hown := h.clients i hi
  unfold ClientOk at hown
  rw [hcl] at hown
  obtain ⟨href, hrefed, hbef, hlog, hobs, hdy⟩ := hown
  have hinfo : ∀ o ∈ W.objs, s'.shm.refInfo o = s.shm.refInfo o := by
    intro o ho
    rw [hs']
    refine Function.update_of_ne ?_ ..
    intro heq
    exact (W.header_not_slot o ho i).2.1 (heq ▸ href)
  have hslot_ne : ∀ a, a ≠ c.ref → s'.shm.word a = s.shm.word a := by
    intro a ha
    rw [hs']
    exact Function.update_of_ne ha ..
  have hslot : ∀ j, j ≠ i → ∀ a ∈ W.slots j, s'.shm.word a = s.shm.word a := by
    intro j hji a ha
    refine hslot_ne a ?_
    rintro rfl
    exact hji (W.slots_disjoint j i _ ha href)
  have hera : ∀ x y, s'.shm.era x y = s.shm.era x y := by
    intro x y
    rw [hs']
    rfl
  have heras : s'.eras = s.eras := by
    rw [hs']
    rfl
  have hcl' : s'.client i = some (c, .bumpEra info) := by simp [hs', EraSys.setClient]
  have hcl_ne : ∀ j, j ≠ i → s'.client j = s.client j := by
    intro j hji
    simp [hs', EraSys.setClient, hji]
  have hpub : ∀ k, s'.pub k = s.pub k := by
    intro k
    by_cases hki : k = i
    · subst hki
      unfold EraSys.pub
      rw [hcl, hcl', heras]
    · exact EraSys.pub_congr (hcl_ne k hki) (by rw [heras])
  refine h.of_step (i := i) (fun _ _ => Iff.rfl) ?_ ?_ ?_ ?_ ?_ ?_ ?_ ?_ ?_ ?_
  · intro j hj hji
    exact ⟨hcl_ne j hji, by rw [hs']; rfl, by rw [heras], hslot j hji,
      fun k _ => Nat.le_of_eq (hpub k).symm, fun x y _ => Nat.le_of_eq (hera x y).symm,
      fun y _ => hera j y, fun o ho => Or.inl (hinfo o ho)⟩
  · intro j _ _ k
    rw [hs']
    rfl
  · intro _
    unfold ClientOk
    rw [hcl']
    refine ⟨href, hrefed, ?_, ?_, ?_, ?_⟩
    · rw [hs']
      exact Function.update_self ..
    · rw [heras, hs']
      exact hlog
    · intro _
      unfold Observed ObservedAt
      rw [hinfo _ hrefed, heras]
      simp only [hera]
      exact hobs
    · intro hf h1
      obtain ⟨hd1, hd2⟩ := hdy hf h1
      unfold Dying Shm.refCnt
      rw [hinfo _ hrefed]
      exact ⟨hd1, hd2⟩
  · intro hi
    have hl := h.log i hi
    rw [hs']
    exact hl
  · intro j hj
    rw [hera, heras]
    exact h.era_eq j hj
  · intro k hk
    rw [hs']
    exact h.below k hk
  · intro o ho
    rw [hinfo o ho]
    exact (h.info o ho).mono fun k _ => Nat.le_of_eq (hpub k).symm
  · intro k hk j hj hjk
    rw [hera, hpub]
    exact h.seen_lt k hk j hj hjk
  · intro j hj o ho
    have hnet : s'.net j o = s.net j o := by
      rw [hs']
      rfl
    have hacct := h.acct j hj o ho
    rw [hnet, hacct]
    by_cases hji : j = i
    · subst hji
      -- what was pending is in the slot now
      have hp : s.pend j o = if c.refed = o then c.delta else 0 := by
        unfold EraSys.pend
        rw [hcl]
      have hp' : s'.pend j o = 0 := by
        unfold EraSys.pend
        rw [hcl']
      have hw : s'.shm.word = Function.update s.shm.word c.ref c.target := by
        rw [hs']
        rfl
      rw [hp, hp', hw, holding_store_target href hbef ho, Int.add_zero]
    · rw [EraSys.pend_congr (hcl_ne j hji), holding_congr o (hslot j hji)]
  · intro o ho
    have hnet : s'.net = s.net := by
      rw [hs']
      rfl
    rw [hnet, ← h.count o ho]
    unfold Shm.refCnt
    rw [hinfo o ho]

/-- `*era(thread_id, thread_id) += 1`. -/
theorem EraInv.bumpEra (h : EraInv W lent s) (hi : i ∈ W.ids) {info : Nat}
    {x : Option (RefCall × RefPc)} (hcl : s.client i = some (c, .bumpEra info))
    (hx : x = if c.func = .unlinkRef ∧ getRefCntFromInfo info = 1 then some (c, .wipe 0) else none)
    (hs' : s' = { s.setClient i x with
      shm := s.shm.storeEra i i ((s.shm.era i i + 1) % 2 ^ 32)
      eras := Function.update s.eras i (s.eras i + 1) })
    (hroom' : EraRoom W s') : EraInv W lent s' := by
  have hown := h.clients i hi
  unfold ClientOk at hown
  rw [hcl] at hown
  obtain ⟨href, hrefed, htar, hlog, hobs, hdy⟩ := hown
  have heras_self : s'.eras i = s.eras i + 1 := by simp [hs']
  have heras_ne : ∀ j, j ≠ i → s'.eras j = s.eras j := by
    intro j hji
    simp [hs', EraSys.setClient, hji]
  have hwrap : (s.shm.era i i + 1) % 2 ^ 32 = s.eras i + 1 := by
    have := hroom'.1 i hi
    rw [heras_self] at this
    rw [(h.era_eq i hi).1]
    exact Nat.mod_eq_of_lt this
  have hcol : i ≤ maxThread := Nat.le_of_lt (W.ids_range i hi).2
  have hera : ∀ y z, Col z → s'.shm.era y z =
      if y = i ∧ z = i then s.eras i + 1 else s.shm.era y z := by
    intro y z hz
    rw [hs', ← hwrap]
    exact era_storeEra hcol hz
  have hcl' : s'.client i = x := by simp [hs', EraSys.setClient]
  have hcl_ne : ∀ j, j ≠ i → s'.client j = s.client j := by
    intro j hji
    simp [hs', EraSys.setClient, hji]
  have hnew : ∀ d pc, s'.client i = some (d, pc) → ¬ pc.published := by
    intro d pc hd
    rw [hcl', hx] at hd
    split at hd
    · cases hd
      exact id
    · exact absurd hd (by simp)
  have hpub : ∀ k, s'.pub k = s.pub k := by
    intro k
    by_cases hki : k = i
    · subst hki
      rw [EraSys.pub_of_not_published hnew, heras_self]
      unfold EraSys.pub
      rw [hcl]
    · exact EraSys.pub_congr (hcl_ne k hki) (heras_ne k hki)
  have hpend : ∀ j o, s'.pend j o = s.pend j o := by
    intro j o
    by_cases hji : j = i
    · subst hji
      rw [EraSys.pend_of_not_published hnew]
      unfold EraSys.pend
      rw [hcl]
    · exact EraSys.pend_congr (hcl_ne j hji)
  have hword : s'.shm.word = s.shm.word := by
    rw [hs']
    rfl
  have hinfo : ∀ o, s'.shm.refInfo o = s.shm.refInfo o := by
    intro o
    rw [hs']
    rfl
  refine h.of_step (i := i) (fun _ _ => Iff.rfl) ?_ ?_ ?_ ?_ ?_ ?_ ?_ ?_ ?_ ?_
  · intro j hj hji
    refine ⟨hcl_ne j hji, by rw [hs']; rfl, heras_ne j hji, fun a _ => by rw [hword],
      fun k _ => Nat.le_of_eq (hpub k).symm, ?_, ?_, fun o _ => Or.inl (hinfo o)⟩
    · intro y z hz
      rw [hera y z hz]
      split
      · rename_i hyz
        rw [hyz.1, hyz.2, (h.era_eq i hi).1]
        exact Nat.le_succ _
      · exact Nat.le_refl _
    · intro z hz
      rw [hera j z hz, if_neg fun hjz => hji hjz.1]
  · intro j _ _ k
    rw [hs']
    rfl
  · intro _
    have hlogged : ∀ l, s'.logged i = some l → l = ⟨c, s.eras i, true⟩ := by
      intro l hl
      rw [show s'.logged i = s.logged i by rw [hs']; rfl, hlog] at hl
      cases hl
      rfl
    have hset : Settled W (i ∈ lent) s' i := by
      intro l hl
      rw [hlogged l hl]
      refine ⟨rfl, ?_, ?_, ?_⟩
      · rw [heras_self]
        exact Nat.lt_succ_self _
      · intro _
        rw [hword]
        exact ⟨href, htar⟩
      · intro hf
        rcases hobs hf with ⟨hid, hen⟩ | ⟨k, hk, hki, hle⟩
        · left
          rw [hinfo]
          exact ⟨hid, hen⟩
        · right
          refine ⟨k, hk, hki, ?_⟩
          rw [hera k i (W.col hi), if_neg fun hki' => hki hki'.1]
          exact hle
    unfold ClientOk
    rw [hcl', hx]
    by_cases hfree : c.func = .unlinkRef ∧ getRefCntFromInfo info = 1
    · rw [if_pos hfree]
      refine ⟨href, hrefed, hset, ?_, by omega, fun _ => ?_⟩
      · intro l hl
        rw [hlogged l hl]
        exact hfree.1
      · unfold Dying Shm.refCnt
        rw [hinfo]
        exact hdy hfree.1 hfree.2
    · rw [if_neg hfree]
      exact hset
  · intro hi
    have hl := h.log i hi
    rw [hs']
    exact hl
  · intro j hj
    by_cases hji : j = i
    · subst hji
      rw [hera j j (W.col hj), if_pos ⟨rfl, rfl⟩, heras_self]
      exact ⟨rfl, Nat.succ_pos _⟩
    · rw [hera j j (W.col hj), if_neg fun hjj => hji hjj.1, heras_ne j hji]
      exact h.era_eq j hj
  · intro k hk
    rw [hs']
    show Function.update s.shm.eraCell _ _ k = 0
    rw [Function.update_of_ne, h.below k hk]
    have := (W.ids_range i hi).1
    simp only [Shm.eraIdx, maxThread]
    omega
  · intro o ho
    rw [hinfo]
    exact (h.info o ho).mono fun k _ => Nat.le_of_eq (hpub k).symm
  · intro k hk j hj hjk
    rw [hera j k (W.col hk), if_neg fun hjk' => hjk (hjk'.1.trans hjk'.2.symm), hpub]
    exact h.seen_lt k hk j hj hjk
  · intro j hj o ho
    rw [hpend, hword, show s'.net = s.net by rw [hs']; rfl]
    exact h.acct j hj o ho
  · intro o ho
    rw [show s'.net = s.net by rw [hs']; rfl, ← h.count o ho]
    unfold Shm.refCnt
    rw [hinfo]

/-- One word of `memset(b, 0, sizeof(CXLObj))`. -/
theorem EraInv.wipe (h : EraInv W lent s) (hi : i ∈ W.ids) {k : Nat} {x : Option (RefCall × RefPc)}
    (hcl : s.client i = some (c, .wipe k))
    (hx : x = if k + 1 < 3 then some (c, .wipe (k + 1)) else none)
    (hs' : s' = { s.setClient i x with shm := s.shm.store (c.refed + 8 * k) 0 }) :
    EraInv W lent s' := by
  have hown := h.clients i hi
  unfold ClientOk at hown
  rw [hcl] at hown
  obtain ⟨href, hrefed, hset, hunl, hk3, hdy⟩ := hown
  have hold : ∀ d pc, s.client i = some (d, pc) → ¬ pc.published := by
    intro d pc hd
    rw [hcl] at hd
    cases hd
    exact id
  have hnew : ∀ d pc, x = some (d, pc) → ¬ pc.published := by
    intro d pc hd
    rw [hx] at hd
    split at hd
    · cases hd
      exact id
    · exact absurd hd (by simp)
  have hslot : ∀ j, ∀ a ∈ W.slots j, s'.shm.word a = s.shm.word a := by
    intro j a ha
    rw [hs']
    refine Function.update_of_ne ?_ ..
    obtain ⟨h0, h1, h2⟩ := W.header_not_slot _ hrefed j
    rintro rfl
    have : k = 0 ∨ k = 1 ∨ k = 2 := by omega
    rcases this with rfl | rfl | rfl
    · exact h0 ha
    · exact h1 ha
    · exact h2 ha
  -- only the middle word of this very object is a stamp
  have hinfo_ne : ∀ o ∈ W.objs, ¬ (o = c.refed ∧ k = 1) → s'.shm.refInfo o = s.shm.refInfo o := by
    intro o ho hne
    rw [hs']
    refine Function.update_of_ne ?_ ..
    have h1 := W.objs_apart o ho _ hrefed
    have h2 := W.objs_apart _ hrefed o ho
    omega
  have hinfo_self : k = 1 → s'.shm.refInfo c.refed = 0 := by
    rintro rfl
    rw [hs']
    exact Function.update_self ..
  have hpub : ∀ j, s'.pub j = s.pub j := by
    intro j
    rw [hs']
    exact EraSys.pub_setClient hold hnew j
  refine h.of_step (i := i) (fun _ _ => Iff.rfl) ?_ ?_ ?_ ?_ ?_ ?_ ?_ ?_ ?_ ?_
  · intro j hj hji
    refine ⟨by simp [hs', EraSys.setClient, hji], by rw [hs']; rfl, by rw [hs']; rfl, hslot j,
      fun n _ => Nat.le_of_eq (hpub n).symm, fun y z _ => by rw [hs']; exact Nat.le_refl _,
      fun y _ => by rw [hs']; rfl, ?_⟩
    intro o ho
    by_cases ho1 : o = c.refed ∧ k = 1
    · right
      obtain ⟨rfl, hk1⟩ := ho1
      have hid := (hdy (by omega)).2
      exact ⟨fun hid' => absurd (hid'.symm.trans hid) hji, fun hd => hji (hd.2.symm.trans hid)⟩
    · exact Or.inl (hinfo_ne o ho ho1)
  · intro j _ _ n
    rw [hs']
    rfl
  · intro _
    have hlogged : s'.logged i = s.logged i := by
      rw [hs']
      rfl
    have hset' : Settled W (i ∈ lent) s' i := by
      intro l hl
      rw [hlogged] at hl
      refine (hset l hl).congr (by rw [hs']; exact Nat.le_refl _) (hslot i) fun hf => ?_
      -- the line is that of the unlink which frees the object
      rw [hunl l hl] at hf
      cases hf
    have hcl' : s'.client i = x := by simp [hs', EraSys.setClient]
    unfold ClientOk
    rw [hcl', hx]
    by_cases hlast : k + 1 < 3
    · rw [if_pos hlast]
      refine ⟨href, hrefed, hset', by rw [hlogged]; exact hunl, hlast, fun hk2 => ?_⟩
      unfold Dying Shm.refCnt
      rw [hinfo_ne _ hrefed (by omega)]
      exact hdy (by omega)
    · rw [if_neg hlast]
      exact hset'
  · intro hi
    have hl := h.log i hi
    rw [hs']
    exact hl
  · intro j hj
    rw [hs']
    exact h.era_eq j hj
  · intro n hn
    rw [hs']
    exact h.below n hn
  · intro o ho
    by_cases ho1 : o = c.refed ∧ k = 1
    · obtain ⟨rfl, hk1⟩ := ho1
      rw [hinfo_self hk1]
      refine ⟨Nat.zero_le _, fun h0 => ?_⟩
      exact absurd (W.ids_range _ h0).1 (Nat.lt_irrefl 0)
    · rw [hinfo_ne o ho ho1]
      exact (h.info o ho).mono fun n _ => Nat.le_of_eq (hpub n).symm
  · intro n hn j hj hjn
    rw [hpub, show s'.shm.era j n = s.shm.era j n by rw [hs']; rfl]
    exact h.seen_lt n hn j hj hjn
  · intro j hj o ho
    have hpe : s'.pend j o = s.pend j o := by
      rw [hs']
      exact EraSys.pend_setClient hold hnew j o
    rw [hpe, holding_congr o (hslot j), show s'.net = s.net by rw [hs']; rfl]
    exact h.acct j hj o ho
  · intro o ho
    rw [show s'.net = s.net by rw [hs']; rfl, ← h.count o ho]
    by_cases ho1 : o = c.refed ∧ k = 1
    · obtain ⟨rfl, hk1⟩ := ho1
      rw [(hdy (by omega)).1]
      unfold Shm.refCnt
      rw [hinfo_self hk1]
      rfl
    · unfold Shm.refCnt
      rw [hinfo_ne o ho ho1]

end Steps

end CxlShm
