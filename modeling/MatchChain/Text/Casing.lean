import MatchChain.Text.Letters

/-!
# Upper and lower case

Full case conversion of texts (Unicode 17). Most characters change by a constant inside a run of
neighbours, or of every other neighbour; a few become several characters. Capital sigma is the one
character whose lower case depends on its surroundings: at the end of a word it is the final form.
-/

set_option autoImplicit false

namespace MatchChain.Text

/-- Letters and their counterparts in the other case: the first of either, how many there are, and how far from
    one to the next. -/
structure CaseRun where
  source : Nat
  target : Nat
  count : Nat
  step : Nat

namespace CaseRun

def covers (r : CaseRun) (n : Nat) : Bool :=
  r.source ≤ n && n < r.source + r.count * r.step && (n - r.source) % r.step == 0

def apply (r : CaseRun) (n : Nat) : Nat := r.target + (n - r.source)

def reverse (r : CaseRun) : CaseRun := { r with source := r.target, target := r.source }

/-- Neighbours: the first, its counterpart and how many there are. -/
def ofNeighbours : Nat × Nat × Nat → CaseRun
  | (source, target, count) => ⟨source, target, count, 1⟩

/-- Capital letters that are each followed by its small letter: the first and how many there are. -/
def ofPairs : Nat × Nat → CaseRun
  | (source, count) => ⟨source, source + 1, count, 2⟩

end CaseRun

/-- Capital letters and their small letters. -/
def letterRuns : List CaseRun := [
  (256, 24), (306, 3), (313, 8), (330, 23), (377, 3), (386, 2), (391, 1), (395, 1), (401, 1),
  (408, 1), (416, 3), (423, 1), (428, 1), (431, 1), (435, 2), (440, 1), (444, 1), (461, 8),
  (478, 9), (500, 1), (504, 20), (546, 9), (571, 1), (577, 1), (582, 5), (880, 2), (886, 1),
  (984, 12), (1015, 1), (1018, 1), (1120, 17), (1162, 27), (1217, 7), (1232, 48), (7305, 1),
  (7680, 75), (7840, 48), (8579, 1), (11360, 1), (11367, 3), (11378, 1), (11381, 1), (11392, 50),
  (11499, 2), (11506, 1), (42560, 23), (42624, 14), (42786, 7), (42802, 31), (42873, 2), (42878, 5),
  (42891, 1), (42896, 2), (42902, 10), (42932, 8), (42951, 2), (42956, 8), (42997, 1)].map CaseRun.ofPairs ++ [
  (65, 97, 26), (192, 224, 23), (216, 248, 7), (376, 255, 1), (385, 595, 1), (390, 596, 1),
  (393, 598, 2), (398, 477, 1), (399, 601, 1), (400, 603, 1), (403, 608, 1), (404, 611, 1),
  (406, 617, 1), (407, 616, 1), (412, 623, 1), (413, 626, 1), (415, 629, 1), (422, 640, 1),
  (425, 643, 1), (430, 648, 1), (433, 650, 2), (439, 658, 1), (452, 454, 1), (455, 457, 1),
  (458, 460, 1), (497, 499, 1), (502, 405, 1), (503, 447, 1), (544, 414, 1), (570, 11365, 1),
  (573, 410, 1), (574, 11366, 1), (579, 384, 1), (580, 649, 1), (581, 652, 1), (895, 1011, 1),
  (902, 940, 1), (904, 941, 3), (908, 972, 1), (910, 973, 2), (913, 945, 17), (931, 963, 9),
  (975, 983, 1), (1017, 1010, 1), (1021, 891, 3), (1024, 1104, 16), (1040, 1072, 32),
  (1216, 1231, 1), (1329, 1377, 38), (4256, 11520, 38), (4295, 11559, 1), (4301, 11565, 1),
  (5024, 43888, 80), (5104, 5112, 6), (7312, 4304, 43), (7357, 4349, 3), (7944, 7936, 8),
  (7960, 7952, 6), (7976, 7968, 8), (7992, 7984, 8), (8008, 8000, 6), (8025, 8017, 1),
  (8027, 8019, 1), (8029, 8021, 1), (8031, 8023, 1), (8040, 8032, 8), (8120, 8112, 2),
  (8122, 8048, 2), (8136, 8050, 4), (8152, 8144, 2), (8154, 8054, 2), (8168, 8160, 2),
  (8170, 8058, 2), (8172, 8165, 1), (8184, 8056, 2), (8186, 8060, 2), (8498, 8526, 1),
  (8544, 8560, 16), (9398, 9424, 26), (11264, 11312, 48), (11362, 619, 1), (11363, 7549, 1),
  (11364, 637, 1), (11373, 593, 1), (11374, 625, 1), (11375, 592, 1), (11376, 594, 1),
  (11390, 575, 2), (42877, 7545, 1), (42893, 613, 1), (42922, 614, 1), (42923, 604, 1),
  (42924, 609, 1), (42925, 620, 1), (42926, 618, 1), (42928, 670, 1), (42929, 647, 1),
  (42930, 669, 1), (42931, 43859, 1), (42948, 42900, 1), (42949, 642, 1), (42950, 7566, 1),
  (42955, 612, 1), (42972, 411, 1), (65313, 65345, 26), (66560, 66600, 40), (66736, 66776, 36),
  (66928, 66967, 11), (66940, 66979, 15), (66956, 66995, 7), (66964, 67003, 2), (68736, 68800, 51),
  (68944, 68976, 22), (71840, 71872, 32), (93760, 93792, 32), (93856, 93883, 25),
  (125184, 125218, 34)].map CaseRun.ofNeighbours

/-- Letters with an upper case that has another letter as its lower case. -/
def upperOnly : List (Nat × Nat × Nat) := [
  (181, 924, 1), (305, 73, 1), (383, 83, 1), (453, 452, 1), (456, 455, 1), (459, 458, 1),
  (498, 497, 1), (837, 921, 1), (962, 931, 1), (976, 914, 1), (977, 920, 1), (981, 934, 1),
  (982, 928, 1), (1008, 922, 1), (1009, 929, 1), (1013, 917, 1), (7296, 1042, 1), (7297, 1044, 1),
  (7298, 1054, 1), (7299, 1057, 2), (7301, 1058, 1), (7302, 1066, 1), (7303, 1122, 1),
  (7304, 42570, 1), (7835, 7776, 1), (8126, 921, 1)]

/-- Letters with a lower case that has another letter as its upper case. -/
def lowerOnly : List (Nat × Nat × Nat) := [
  (453, 454, 1), (456, 457, 1), (459, 460, 1), (498, 499, 1), (1012, 952, 1), (7838, 223, 1),
  (8072, 8064, 8), (8088, 8080, 8), (8104, 8096, 8), (8124, 8115, 1), (8140, 8131, 1),
  (8188, 8179, 1), (8486, 969, 1), (8490, 107, 1), (8491, 229, 1)]

def upperRuns : List CaseRun := letterRuns.map CaseRun.reverse ++ upperOnly.map CaseRun.ofNeighbours

def lowerRuns : List CaseRun := letterRuns ++ lowerOnly.map CaseRun.ofNeighbours

/-- Neighbours whose upper case is several characters: the first, how many there are, and the upper case of the
    first, in whose place the others have a neighbour of its first character. -/
def upperExpansions : List (Nat × Nat × List Nat) := [
  (223, 1, [83, 83]), (329, 1, [700, 78]), (496, 1, [74, 780]), (912, 1, [921, 776, 769]),
  (944, 1, [933, 776, 769]), (1415, 1, [1333, 1362]), (7830, 1, [72, 817]), (7831, 1, [84, 776]),
  (7832, 1, [87, 778]), (7833, 1, [89, 778]), (7834, 1, [65, 702]), (8016, 1, [933, 787]),
  (8018, 1, [933, 787, 768]), (8020, 1, [933, 787, 769]), (8022, 1, [933, 787, 834]),
  (8064, 8, [7944, 921]), (8072, 8, [7944, 921]), (8080, 8, [7976, 921]), (8088, 8, [7976, 921]),
  (8096, 8, [8040, 921]), (8104, 8, [8040, 921]), (8114, 1, [8122, 921]), (8115, 1, [913, 921]),
  (8116, 1, [902, 921]), (8118, 1, [913, 834]), (8119, 1, [913, 834, 921]), (8124, 1, [913, 921]),
  (8130, 1, [8138, 921]), (8131, 1, [919, 921]), (8132, 1, [905, 921]), (8134, 1, [919, 834]),
  (8135, 1, [919, 834, 921]), (8140, 1, [919, 921]), (8146, 1, [921, 776, 768]),
  (8147, 1, [921, 776, 769]), (8150, 1, [921, 834]), (8151, 1, [921, 776, 834]),
  (8162, 1, [933, 776, 768]), (8163, 1, [933, 776, 769]), (8164, 1, [929, 787]),
  (8166, 1, [933, 834]), (8167, 1, [933, 776, 834]), (8178, 1, [8186, 921]), (8179, 1, [937, 921]),
  (8180, 1, [911, 921]), (8182, 1, [937, 834]), (8183, 1, [937, 834, 921]), (8188, 1, [937, 921]),
  (64256, 1, [70, 70]), (64257, 1, [70, 73]), (64258, 1, [70, 76]), (64259, 1, [70, 70, 73]),
  (64260, 1, [70, 70, 76]), (64261, 1, [83, 84]), (64262, 1, [83, 84]), (64275, 1, [1348, 1350]),
  (64276, 1, [1348, 1333]), (64277, 1, [1348, 1339]), (64278, 1, [1358, 1350]),
  (64279, 1, [1348, 1341])]

/-- Characters whose lower case is several characters. -/
def lowerExpansions : List (Nat × Nat × List Nat) := [(304, 1, [105, 775])]

/-- The property Cased. -/
def casedRuns : List Nat := [
  65,26,6,26,47,1,10,1,4,1,5,23,1,31,1,195,1,4,4,208,2,35,7,2,30,5,96,1,42,4,2,2,2,4,1,1,6,1,1,3,1,
  1,1,20,1,83,1,139,8,166,1,38,9,41,2839,38,1,1,5,1,2,43,1,4,672,86,2,6,2178,11,5,43,2,3,64,192,64,
  278,2,6,2,38,2,6,2,8,1,1,1,1,1,1,1,31,2,53,1,7,1,1,3,3,1,7,3,4,2,6,4,13,5,3,1,7,116,1,13,1,16,13,
  101,1,4,1,2,10,1,1,3,5,6,1,1,1,1,1,1,4,1,6,4,1,2,4,5,5,4,1,17,32,3,2,817,52,1814,229,6,4,3,2,12,
  38,1,1,5,1,30994,46,18,30,132,102,3,4,1,77,20,6,1,3,821,43,1,14,6,80,20288,7,12,5,1033,26,6,26,
  1189,80,96,36,4,36,116,11,1,15,1,7,1,2,1,11,1,15,1,7,1,2,451,1,2,3,1,42,1,9,1221,51,13,51,93,22,
  10,22,2842,64,21856,64,32,25,2,25,25900,85,1,71,1,2,2,1,2,2,2,4,1,12,1,1,1,7,1,65,1,4,2,8,1,7,1,
  28,1,4,1,5,1,1,3,7,1,340,2,25,1,25,1,31,1,25,1,31,1,25,1,31,1,25,1,31,1,25,1,8,1844,10,1,20,6,6,
  261,62,2194,68,2028,26,6,26,6,26]

/-- The property Case_Ignorable. -/
def caseIgnorableRuns : List Nat := [
  39,1,6,1,11,1,35,1,1,1,71,1,4,1,1,1,4,1,2,2,503,192,4,2,4,1,9,2,1,1,251,7,207,1,5,1,49,45,1,1,1,
  2,1,2,1,1,44,1,11,6,10,11,1,1,35,1,10,21,16,1,101,8,1,10,1,4,33,1,1,1,30,27,91,11,58,11,4,1,2,1,
  24,24,43,3,44,1,7,2,5,9,41,58,55,1,1,1,4,8,4,1,3,7,10,2,13,1,15,1,58,1,4,4,8,1,20,2,26,1,2,2,57,
  1,4,2,4,2,2,3,3,1,30,2,3,1,11,2,57,1,4,5,1,2,4,1,20,2,22,6,1,1,58,1,2,1,1,4,8,1,7,2,11,2,30,1,61,
  1,12,1,50,1,3,1,55,1,1,3,5,3,1,4,7,2,11,2,29,1,58,1,2,1,6,1,5,2,20,2,28,2,57,2,4,4,8,1,20,2,29,1,
  72,1,7,3,1,1,90,1,2,7,11,9,98,1,2,9,9,1,1,7,73,2,27,1,1,1,1,1,55,14,1,5,1,2,5,11,1,36,9,1,102,4,
  1,6,1,2,2,2,25,2,4,3,16,4,13,1,2,2,6,1,15,1,94,1,608,3,946,3,29,2,30,2,30,2,64,2,1,7,8,1,2,11,3,
  1,5,1,45,5,51,1,65,2,34,1,118,3,4,2,9,1,6,3,219,2,2,1,58,1,1,7,1,1,1,1,2,8,6,10,2,1,39,1,8,46,2,
  12,20,4,48,1,1,5,1,1,5,1,40,9,12,2,32,4,2,2,1,3,56,1,1,2,3,1,1,3,58,8,2,2,64,6,82,3,1,13,1,7,4,1,
  6,1,3,2,50,63,13,1,34,101,445,1,1,3,11,3,13,3,13,3,13,2,12,5,8,2,10,1,2,1,2,5,49,5,1,10,1,1,13,1,
  16,13,51,33,2955,2,113,3,125,1,15,1,96,32,47,1,469,1,36,4,3,5,5,1,93,6,93,3,28438,1,1250,6,270,1,
  98,4,1,10,1,1,28,4,80,2,14,34,78,1,23,3,102,4,3,2,8,1,3,1,4,1,25,2,5,1,151,2,26,18,13,1,38,8,25,
  11,46,3,48,1,2,4,2,2,17,1,21,2,66,6,2,2,2,2,12,1,8,1,35,1,11,1,51,1,1,3,2,2,5,2,1,1,27,1,14,2,5,
  2,1,1,100,5,9,3,121,1,2,1,4,1,20272,1,147,17,573,16,3,1,12,16,34,1,2,1,169,1,7,1,6,1,11,1,35,1,1,
  1,47,1,45,2,67,1,21,3,513,1,226,1,149,5,1029,6,1,42,1,9,582,3,1,2,5,4,40,3,4,1,165,2,573,4,38,1,
  26,5,1,1,315,2,24,1,52,6,70,11,49,4,123,1,54,15,41,1,2,2,10,3,49,4,2,2,2,1,4,1,10,1,50,3,36,5,1,
  8,62,1,12,2,52,9,10,4,2,1,95,3,2,1,1,2,6,1,2,1,157,1,3,8,21,2,57,2,3,1,37,7,3,5,70,6,13,1,1,1,1,
  1,14,2,85,8,2,3,1,1,23,1,84,6,1,1,4,2,1,2,238,4,6,2,1,2,27,2,85,8,2,1,1,2,106,1,1,1,2,6,1,1,101,
  1,1,1,2,4,1,5,259,9,1,2,256,2,1,1,4,1,144,4,2,2,4,1,32,10,40,6,2,4,8,1,9,6,2,3,46,13,1,2,198,1,1,
  3,1,1,201,7,1,6,1,1,82,22,2,7,1,2,1,2,122,6,3,1,1,2,1,7,1,1,72,2,3,1,1,1,65,1,281,2,11,2,52,5,5,
  1,1,1,23,1,5333,17,6,15,11464,12,3,3,2496,5,59,7,9,4,508,3,40,2,482,1,63,17,64,2,1,2,13,2,16380,
  4,1,7,1,2,3230,2,1,4,4700,46,2,23,544,3,9,16,2,7,30,4,148,3,1979,55,4,50,8,1,14,1,22,5,1,15,1360,
  7,1,17,2,7,1,2,1,5,5,62,33,1,160,14,368,1,61,4,507,5,254,2,243,1,2,1,7,2,5,1,9,1,464,7,109,8,
  2735,5,789505,1,30,96,128,240]

/-- The characters that one character becomes. -/
def mapCase (runs : List CaseRun) (expansions : List (Nat × Nat × List Nat)) (c : Char) : List Char :=
  match expansions.find? fun e => e.1 ≤ c.toNat && c.toNat < e.1 + e.2.1 with
  | some (first, _, targets) => (targets.modifyHead (· + (c.toNat - first))).map Char.ofNat
  | none =>
    match runs.find? (·.covers c.toNat) with
    | some run => [Char.ofNat (run.apply c.toNat)]
    | none => [c]

/-- Whether a cased character comes next, after ignorable ones. -/
def casedNext (cs : List Char) : Bool :=
  match cs.dropWhile (inRuns caseIgnorableRuns) with
  | [] => false
  | c :: _ => inRuns casedRuns c

def toUpper (cs : List Char) : List Char :=
  cs.flatMap (mapCase upperRuns upperExpansions)

/-- Lower case; `before` holds the characters already passed, nearest first. -/
def toLowerAfter (before : List Char) : List Char → List Char
  | [] => []
  | c :: cs =>
    let lowered :=
      if c = 'Σ' then [if casedNext before && !casedNext cs then 'ς' else 'σ']
      else mapCase lowerRuns lowerExpansions c
    lowered ++ toLowerAfter (c :: before) cs

def toLower (cs : List Char) : List Char := toLowerAfter [] cs

end MatchChain.Text
