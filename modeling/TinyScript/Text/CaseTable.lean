/-
  TinyScript.Text.CaseTable — case data of the Unicode standard, beyond ASCII.

  A run lists characters a fixed stride apart whose counterparts all lie the same offset away. Some
  characters have a counterpart of several characters. Whether a capital sigma ends a word depends
  on the cased characters around it, past the ones that case ignores.
-/

namespace TinyScript.Text

structure CaseRun where
  first : Nat
  last : Nat
  stride : Nat
  offset : Int
  deriving DecidableEq, Repr

/-- A run of one character. -/
def CaseRun.one (c : Nat) (offset : Int) : CaseRun := ⟨c, c, 1, offset⟩

set_option maxRecDepth 4000

/-- Single-character capitals. -/
def upperRuns : List CaseRun := [
  .one 0xB5 743, ⟨0xE0, 0xF6, 1, -32⟩, ⟨0xF8, 0xFE, 1, -32⟩, .one 0xFF 121, ⟨0x101, 0x12F, 2, -1⟩,
  .one 0x131 (-232), ⟨0x133, 0x137, 2, -1⟩, ⟨0x13A, 0x148, 2, -1⟩, ⟨0x14B, 0x177, 2, -1⟩,
  ⟨0x17A, 0x17E, 2, -1⟩, .one 0x17F (-300), .one 0x180 195, ⟨0x183, 0x185, 2, -1⟩, .one 0x188 (-1),
  .one 0x18C (-1), .one 0x192 (-1), .one 0x195 97, .one 0x199 (-1), .one 0x19A 163,
  .one 0x19B 42561, .one 0x19E 130, ⟨0x1A1, 0x1A5, 2, -1⟩, .one 0x1A8 (-1), .one 0x1AD (-1),
  .one 0x1B0 (-1), ⟨0x1B4, 0x1B6, 2, -1⟩, .one 0x1B9 (-1), .one 0x1BD (-1), .one 0x1BF 56,
  .one 0x1C5 (-1), .one 0x1C6 (-2), .one 0x1C8 (-1), .one 0x1C9 (-2), .one 0x1CB (-1),
  .one 0x1CC (-2), ⟨0x1CE, 0x1DC, 2, -1⟩, .one 0x1DD (-79), ⟨0x1DF, 0x1EF, 2, -1⟩, .one 0x1F2 (-1),
  .one 0x1F3 (-2), .one 0x1F5 (-1), ⟨0x1F9, 0x21F, 2, -1⟩, ⟨0x223, 0x233, 2, -1⟩, .one 0x23C (-1),
  ⟨0x23F, 0x240, 1, 10815⟩, .one 0x242 (-1), ⟨0x247, 0x24F, 2, -1⟩, .one 0x250 10783,
  .one 0x251 10780, .one 0x252 10782, .one 0x253 (-210), .one 0x254 (-206), ⟨0x256, 0x257, 1, -205⟩,
  .one 0x259 (-202), .one 0x25B (-203), .one 0x25C 42319, .one 0x260 (-205), .one 0x261 42315,
  .one 0x263 (-207), .one 0x264 42343, .one 0x265 42280, .one 0x266 42308, .one 0x268 (-209),
  .one 0x269 (-211), .one 0x26A 42308, .one 0x26B 10743, .one 0x26C 42305, .one 0x26F (-211),
  .one 0x271 10749, .one 0x272 (-213), .one 0x275 (-214), .one 0x27D 10727, .one 0x280 (-218),
  .one 0x282 42307, .one 0x283 (-218), .one 0x287 42282, .one 0x288 (-218), .one 0x289 (-69),
  ⟨0x28A, 0x28B, 1, -217⟩, .one 0x28C (-71), .one 0x292 (-219), .one 0x29D 42261, .one 0x29E 42258,
  .one 0x345 84, ⟨0x371, 0x373, 2, -1⟩, .one 0x377 (-1), ⟨0x37B, 0x37D, 1, 130⟩, .one 0x3AC (-38),
  ⟨0x3AD, 0x3AF, 1, -37⟩, ⟨0x3B1, 0x3C1, 1, -32⟩, .one 0x3C2 (-31), ⟨0x3C3, 0x3CB, 1, -32⟩,
  .one 0x3CC (-64), ⟨0x3CD, 0x3CE, 1, -63⟩, .one 0x3D0 (-62), .one 0x3D1 (-57), .one 0x3D5 (-47),
  .one 0x3D6 (-54), .one 0x3D7 (-8), ⟨0x3D9, 0x3EF, 2, -1⟩, .one 0x3F0 (-86), .one 0x3F1 (-80),
  .one 0x3F2 7, .one 0x3F3 (-116), .one 0x3F5 (-96), .one 0x3F8 (-1), .one 0x3FB (-1),
  ⟨0x430, 0x44F, 1, -32⟩, ⟨0x450, 0x45F, 1, -80⟩, ⟨0x461, 0x481, 2, -1⟩, ⟨0x48B, 0x4BF, 2, -1⟩,
  ⟨0x4C2, 0x4CE, 2, -1⟩, .one 0x4CF (-15), ⟨0x4D1, 0x52F, 2, -1⟩, ⟨0x561, 0x586, 1, -48⟩,
  ⟨0x10D0, 0x10FA, 1, 3008⟩, ⟨0x10FD, 0x10FF, 1, 3008⟩, ⟨0x13F8, 0x13FD, 1, -8⟩,
  .one 0x1C80 (-6254), .one 0x1C81 (-6253), .one 0x1C82 (-6244), ⟨0x1C83, 0x1C84, 1, -6242⟩,
  .one 0x1C85 (-6243), .one 0x1C86 (-6236), .one 0x1C87 (-6181), .one 0x1C88 35266,
  .one 0x1C8A (-1), .one 0x1D79 35332, .one 0x1D7D 3814, .one 0x1D8E 35384, ⟨0x1E01, 0x1E95, 2, -1⟩,
  .one 0x1E9B (-59), ⟨0x1EA1, 0x1EFF, 2, -1⟩, ⟨0x1F00, 0x1F07, 1, 8⟩, ⟨0x1F10, 0x1F15, 1, 8⟩,
  ⟨0x1F20, 0x1F27, 1, 8⟩, ⟨0x1F30, 0x1F37, 1, 8⟩, ⟨0x1F40, 0x1F45, 1, 8⟩, ⟨0x1F51, 0x1F57, 2, 8⟩,
  ⟨0x1F60, 0x1F67, 1, 8⟩, ⟨0x1F70, 0x1F71, 1, 74⟩, ⟨0x1F72, 0x1F75, 1, 86⟩,
  ⟨0x1F76, 0x1F77, 1, 100⟩, ⟨0x1F78, 0x1F79, 1, 128⟩, ⟨0x1F7A, 0x1F7B, 1, 112⟩,
  ⟨0x1F7C, 0x1F7D, 1, 126⟩, ⟨0x1FB0, 0x1FB1, 1, 8⟩, .one 0x1FBE (-7205), ⟨0x1FD0, 0x1FD1, 1, 8⟩,
  ⟨0x1FE0, 0x1FE1, 1, 8⟩, .one 0x1FE5 7, .one 0x214E (-28), ⟨0x2170, 0x217F, 1, -16⟩,
  .one 0x2184 (-1), ⟨0x24D0, 0x24E9, 1, -26⟩, ⟨0x2C30, 0x2C5F, 1, -48⟩, .one 0x2C61 (-1),
  .one 0x2C65 (-10795), .one 0x2C66 (-10792), ⟨0x2C68, 0x2C6C, 2, -1⟩, .one 0x2C73 (-1),
  .one 0x2C76 (-1), ⟨0x2C81, 0x2CE3, 2, -1⟩, ⟨0x2CEC, 0x2CEE, 2, -1⟩, .one 0x2CF3 (-1),
  ⟨0x2D00, 0x2D25, 1, -7264⟩, .one 0x2D27 (-7264), .one 0x2D2D (-7264), ⟨0xA641, 0xA66D, 2, -1⟩,
  ⟨0xA681, 0xA69B, 2, -1⟩, ⟨0xA723, 0xA72F, 2, -1⟩, ⟨0xA733, 0xA76F, 2, -1⟩,
  ⟨0xA77A, 0xA77C, 2, -1⟩, ⟨0xA77F, 0xA787, 2, -1⟩, .one 0xA78C (-1), ⟨0xA791, 0xA793, 2, -1⟩,
  .one 0xA794 48, ⟨0xA797, 0xA7A9, 2, -1⟩, ⟨0xA7B5, 0xA7C3, 2, -1⟩, ⟨0xA7C8, 0xA7CA, 2, -1⟩,
  ⟨0xA7CD, 0xA7DB, 2, -1⟩, .one 0xA7F6 (-1), .one 0xAB53 (-928), ⟨0xAB70, 0xABBF, 1, -38864⟩,
  ⟨0xFF41, 0xFF5A, 1, -32⟩, ⟨0x10428, 0x1044F, 1, -40⟩, ⟨0x104D8, 0x104FB, 1, -40⟩,
  ⟨0x10597, 0x105BB, 2, -39⟩, ⟨0x10598, 0x105A0, 2, -39⟩, ⟨0x105A4, 0x105B0, 2, -39⟩,
  ⟨0x105B4, 0x105B8, 2, -39⟩, .one 0x105BC (-39), ⟨0x10CC0, 0x10CF2, 1, -64⟩,
  ⟨0x10D70, 0x10D85, 1, -32⟩, ⟨0x118C0, 0x118DF, 1, -32⟩, ⟨0x16E60, 0x16E7F, 1, -32⟩,
  ⟨0x16EBB, 0x16ED3, 1, -27⟩, ⟨0x1E922, 0x1E943, 1, -34⟩]

/-- Single-character small letters, the capital sigma apart. -/
def lowerRuns : List CaseRun := [
  ⟨0xC0, 0xD6, 1, 32⟩, ⟨0xD8, 0xDE, 1, 32⟩, ⟨0x100, 0x12E, 2, 1⟩, ⟨0x132, 0x136, 2, 1⟩,
  ⟨0x139, 0x147, 2, 1⟩, ⟨0x14A, 0x176, 2, 1⟩, .one 0x178 (-121), ⟨0x179, 0x17D, 2, 1⟩,
  .one 0x181 210, ⟨0x182, 0x184, 2, 1⟩, .one 0x186 206, .one 0x187 1, ⟨0x189, 0x18A, 1, 205⟩,
  .one 0x18B 1, .one 0x18E 79, .one 0x18F 202, .one 0x190 203, .one 0x191 1, .one 0x193 205,
  .one 0x194 207, .one 0x196 211, .one 0x197 209, .one 0x198 1, .one 0x19C 211, .one 0x19D 213,
  .one 0x19F 214, ⟨0x1A0, 0x1A4, 2, 1⟩, .one 0x1A6 218, .one 0x1A7 1, .one 0x1A9 218, .one 0x1AC 1,
  .one 0x1AE 218, .one 0x1AF 1, ⟨0x1B1, 0x1B2, 1, 217⟩, ⟨0x1B3, 0x1B5, 2, 1⟩, .one 0x1B7 219,
  .one 0x1B8 1, .one 0x1BC 1, .one 0x1C4 2, .one 0x1C5 1, .one 0x1C7 2, .one 0x1C8 1, .one 0x1CA 2,
  ⟨0x1CB, 0x1DB, 2, 1⟩, ⟨0x1DE, 0x1EE, 2, 1⟩, .one 0x1F1 2, ⟨0x1F2, 0x1F4, 2, 1⟩, .one 0x1F6 (-97),
  .one 0x1F7 (-56), ⟨0x1F8, 0x21E, 2, 1⟩, .one 0x220 (-130), ⟨0x222, 0x232, 2, 1⟩, .one 0x23A 10795,
  .one 0x23B 1, .one 0x23D (-163), .one 0x23E 10792, .one 0x241 1, .one 0x243 (-195), .one 0x244 69,
  .one 0x245 71, ⟨0x246, 0x24E, 2, 1⟩, ⟨0x370, 0x372, 2, 1⟩, .one 0x376 1, .one 0x37F 116,
  .one 0x386 38, ⟨0x388, 0x38A, 1, 37⟩, .one 0x38C 64, ⟨0x38E, 0x38F, 1, 63⟩, ⟨0x391, 0x3A1, 1, 32⟩,
  ⟨0x3A4, 0x3AB, 1, 32⟩, .one 0x3CF 8, ⟨0x3D8, 0x3EE, 2, 1⟩, .one 0x3F4 (-60), .one 0x3F7 1,
  .one 0x3F9 (-7), .one 0x3FA 1, ⟨0x3FD, 0x3FF, 1, -130⟩, ⟨0x400, 0x40F, 1, 80⟩,
  ⟨0x410, 0x42F, 1, 32⟩, ⟨0x460, 0x480, 2, 1⟩, ⟨0x48A, 0x4BE, 2, 1⟩, .one 0x4C0 15,
  ⟨0x4C1, 0x4CD, 2, 1⟩, ⟨0x4D0, 0x52E, 2, 1⟩, ⟨0x531, 0x556, 1, 48⟩, ⟨0x10A0, 0x10C5, 1, 7264⟩,
  .one 0x10C7 7264, .one 0x10CD 7264, ⟨0x13A0, 0x13EF, 1, 38864⟩, ⟨0x13F0, 0x13F5, 1, 8⟩,
  .one 0x1C89 1, ⟨0x1C90, 0x1CBA, 1, -3008⟩, ⟨0x1CBD, 0x1CBF, 1, -3008⟩, ⟨0x1E00, 0x1E94, 2, 1⟩,
  .one 0x1E9E (-7615), ⟨0x1EA0, 0x1EFE, 2, 1⟩, ⟨0x1F08, 0x1F0F, 1, -8⟩, ⟨0x1F18, 0x1F1D, 1, -8⟩,
  ⟨0x1F28, 0x1F2F, 1, -8⟩, ⟨0x1F38, 0x1F3F, 1, -8⟩, ⟨0x1F48, 0x1F4D, 1, -8⟩,
  ⟨0x1F59, 0x1F5F, 2, -8⟩, ⟨0x1F68, 0x1F6F, 1, -8⟩, ⟨0x1F88, 0x1F8F, 1, -8⟩,
  ⟨0x1F98, 0x1F9F, 1, -8⟩, ⟨0x1FA8, 0x1FAF, 1, -8⟩, ⟨0x1FB8, 0x1FB9, 1, -8⟩,
  ⟨0x1FBA, 0x1FBB, 1, -74⟩, .one 0x1FBC (-9), ⟨0x1FC8, 0x1FCB, 1, -86⟩, .one 0x1FCC (-9),
  ⟨0x1FD8, 0x1FD9, 1, -8⟩, ⟨0x1FDA, 0x1FDB, 1, -100⟩, ⟨0x1FE8, 0x1FE9, 1, -8⟩,
  ⟨0x1FEA, 0x1FEB, 1, -112⟩, .one 0x1FEC (-7), ⟨0x1FF8, 0x1FF9, 1, -128⟩, ⟨0x1FFA, 0x1FFB, 1, -126⟩,
  .one 0x1FFC (-9), .one 0x2126 (-7517), .one 0x212A (-8383), .one 0x212B (-8262), .one 0x2132 28,
  ⟨0x2160, 0x216F, 1, 16⟩, .one 0x2183 1, ⟨0x24B6, 0x24CF, 1, 26⟩, ⟨0x2C00, 0x2C2F, 1, 48⟩,
  .one 0x2C60 1, .one 0x2C62 (-10743), .one 0x2C63 (-3814), .one 0x2C64 (-10727),
  ⟨0x2C67, 0x2C6B, 2, 1⟩, .one 0x2C6D (-10780), .one 0x2C6E (-10749), .one 0x2C6F (-10783),
  .one 0x2C70 (-10782), .one 0x2C72 1, .one 0x2C75 1, ⟨0x2C7E, 0x2C7F, 1, -10815⟩,
  ⟨0x2C80, 0x2CE2, 2, 1⟩, ⟨0x2CEB, 0x2CED, 2, 1⟩, .one 0x2CF2 1, ⟨0xA640, 0xA66C, 2, 1⟩,
  ⟨0xA680, 0xA69A, 2, 1⟩, ⟨0xA722, 0xA72E, 2, 1⟩, ⟨0xA732, 0xA76E, 2, 1⟩, ⟨0xA779, 0xA77B, 2, 1⟩,
  .one 0xA77D (-35332), ⟨0xA77E, 0xA786, 2, 1⟩, .one 0xA78B 1, .one 0xA78D (-42280),
  ⟨0xA790, 0xA792, 2, 1⟩, ⟨0xA796, 0xA7A8, 2, 1⟩, .one 0xA7AA (-42308), .one 0xA7AB (-42319),
  .one 0xA7AC (-42315), .one 0xA7AD (-42305), .one 0xA7AE (-42308), .one 0xA7B0 (-42258),
  .one 0xA7B1 (-42282), .one 0xA7B2 (-42261), .one 0xA7B3 928, ⟨0xA7B4, 0xA7C2, 2, 1⟩,
  .one 0xA7C4 (-48), .one 0xA7C5 (-42307), .one 0xA7C6 (-35384), ⟨0xA7C7, 0xA7C9, 2, 1⟩,
  .one 0xA7CB (-42343), ⟨0xA7CC, 0xA7DA, 2, 1⟩, .one 0xA7DC (-42561), .one 0xA7F5 1,
  ⟨0xFF21, 0xFF3A, 1, 32⟩, ⟨0x10400, 0x10427, 1, 40⟩, ⟨0x104B0, 0x104D3, 1, 40⟩,
  ⟨0x10570, 0x10594, 2, 39⟩, ⟨0x10571, 0x10579, 2, 39⟩, ⟨0x1057D, 0x10589, 2, 39⟩,
  ⟨0x1058D, 0x10591, 2, 39⟩, .one 0x10595 39, ⟨0x10C80, 0x10CB2, 1, 64⟩, ⟨0x10D50, 0x10D65, 1, 32⟩,
  ⟨0x118A0, 0x118BF, 1, 32⟩, ⟨0x16E40, 0x16E5F, 1, 32⟩, ⟨0x16EA0, 0x16EB8, 1, 27⟩,
  ⟨0x1E900, 0x1E921, 1, 34⟩]

/-- Eight Greek letters in a row, whose capitals have a capital iota behind them. -/
def withIota (first capital : Nat) : List (Nat × List Nat) :=
  (List.range 8).map fun i => (first + i, [capital + i, 0x399])

/-- Capitals of several characters. -/
def upperExpansions : List (Nat × List Nat) :=
  withIota 0x1F80 0x1F08 ++ withIota 0x1F88 0x1F08 ++ withIota 0x1F90 0x1F28 ++
  withIota 0x1F98 0x1F28 ++ withIota 0x1FA0 0x1F68 ++ withIota 0x1FA8 0x1F68 ++ [
  (0xDF, [0x53, 0x53]), (0x149, [0x2BC, 0x4E]), (0x1F0, [0x4A, 0x30C]),
  (0x390, [0x399, 0x308, 0x301]), (0x3B0, [0x3A5, 0x308, 0x301]), (0x587, [0x535, 0x552]),
  (0x1E96, [0x48, 0x331]), (0x1E97, [0x54, 0x308]), (0x1E98, [0x57, 0x30A]),
  (0x1E99, [0x59, 0x30A]), (0x1E9A, [0x41, 0x2BE]), (0x1F50, [0x3A5, 0x313]),
  (0x1F52, [0x3A5, 0x313, 0x300]), (0x1F54, [0x3A5, 0x313, 0x301]), (0x1F56, [0x3A5, 0x313, 0x342]),
  (0x1FB2, [0x1FBA, 0x399]), (0x1FB3, [0x391, 0x399]), (0x1FB4, [0x386, 0x399]),
  (0x1FB6, [0x391, 0x342]), (0x1FB7, [0x391, 0x342, 0x399]), (0x1FBC, [0x391, 0x399]),
  (0x1FC2, [0x1FCA, 0x399]), (0x1FC3, [0x397, 0x399]), (0x1FC4, [0x389, 0x399]),
  (0x1FC6, [0x397, 0x342]), (0x1FC7, [0x397, 0x342, 0x399]), (0x1FCC, [0x397, 0x399]),
  (0x1FD2, [0x399, 0x308, 0x300]), (0x1FD3, [0x399, 0x308, 0x301]), (0x1FD6, [0x399, 0x342]),
  (0x1FD7, [0x399, 0x308, 0x342]), (0x1FE2, [0x3A5, 0x308, 0x300]), (0x1FE3, [0x3A5, 0x308, 0x301]),
  (0x1FE4, [0x3A1, 0x313]), (0x1FE6, [0x3A5, 0x342]), (0x1FE7, [0x3A5, 0x308, 0x342]),
  (0x1FF2, [0x1FFA, 0x399]), (0x1FF3, [0x3A9, 0x399]), (0x1FF4, [0x38F, 0x399]),
  (0x1FF6, [0x3A9, 0x342]), (0x1FF7, [0x3A9, 0x342, 0x399]), (0x1FFC, [0x3A9, 0x399]),
  (0xFB00, [0x46, 0x46]), (0xFB01, [0x46, 0x49]), (0xFB02, [0x46, 0x4C]),
  (0xFB03, [0x46, 0x46, 0x49]), (0xFB04, [0x46, 0x46, 0x4C]), (0xFB05, [0x53, 0x54]),
  (0xFB06, [0x53, 0x54]), (0xFB13, [0x544, 0x546]), (0xFB14, [0x544, 0x535]),
  (0xFB15, [0x544, 0x53B]), (0xFB16, [0x54E, 0x546]), (0xFB17, [0x544, 0x53D])]

def lowerExpansions : List (Nat × List Nat) := [
  (0x130, [0x69, 0x307])]

/-- Cased characters that are not ignored by case. -/
def casedRanges : List Nat := [
  65, 26, 6, 26, 47, 1, 10, 1, 4, 1, 5, 23, 1, 31, 1, 195, 1, 4, 4, 208, 2, 26, 192, 4, 2, 2, 3, 3,
  1, 1, 6, 1, 1, 3, 1, 1, 1, 20, 1, 83, 1, 139, 8, 166, 1, 38, 9, 41, 2839, 38, 1, 1, 5, 1, 2, 43,
  2, 3, 672, 86, 2, 6, 2178, 11, 5, 43, 2, 3, 64, 44, 63, 13, 1, 34, 101, 278, 2, 6, 2, 38, 2, 6, 2,
  8, 1, 1, 1, 1, 1, 1, 1, 31, 2, 53, 1, 7, 1, 1, 3, 3, 1, 7, 3, 4, 2, 6, 4, 13, 5, 3, 1, 7, 261, 1,
  4, 1, 2, 10, 1, 1, 3, 5, 6, 1, 1, 1, 1, 1, 1, 4, 1, 6, 4, 1, 2, 4, 5, 5, 4, 1, 17, 32, 3, 2, 817,
  52, 1814, 124, 2, 103, 6, 4, 3, 2, 12, 38, 1, 1, 5, 1, 30994, 46, 18, 28, 134, 78, 1, 23, 3, 4, 1,
  77, 24, 2, 3, 1, 821, 43, 5, 9, 7, 80, 20288, 7, 12, 5, 1033, 26, 6, 26, 1189, 80, 96, 36, 4, 36,
  116, 11, 1, 15, 1, 7, 1, 2, 1, 11, 1, 15, 1, 7, 1, 2, 1731, 51, 13, 51, 93, 22, 10, 22, 2842, 64,
  21856, 64, 32, 25, 2, 25, 25900, 85, 1, 71, 1, 2, 2, 1, 2, 2, 2, 4, 1, 12, 1, 1, 1, 7, 1, 65, 1,
  4, 2, 8, 1, 7, 1, 28, 1, 4, 1, 5, 1, 1, 3, 7, 1, 340, 2, 25, 1, 25, 1, 31, 1, 25, 1, 31, 1, 25, 1,
  31, 1, 25, 1, 31, 1, 25, 1, 8, 1844, 10, 1, 20, 6, 6, 2517, 68, 2028, 26, 6, 26, 6, 26]

/-- Characters that case ignores. -/
def caseIgnorableRanges : List Nat := [
  39, 1, 6, 1, 11, 1, 35, 1, 1, 1, 71, 1, 4, 1, 1, 1, 4, 1, 2, 2, 503, 192, 4, 2, 4, 1, 9, 2, 1, 1,
  251, 7, 207, 1, 5, 1, 49, 45, 1, 1, 1, 2, 1, 2, 1, 1, 44, 1, 11, 6, 10, 11, 1, 1, 35, 1, 10, 21,
  16, 1, 101, 8, 1, 10, 1, 4, 33, 1, 1, 1, 30, 27, 91, 11, 58, 11, 4, 1, 2, 1, 24, 24, 43, 3, 44, 1,
  7, 2, 5, 9, 41, 58, 55, 1, 1, 1, 4, 8, 4, 1, 3, 7, 10, 2, 13, 1, 15, 1, 58, 1, 4, 4, 8, 1, 20, 2,
  26, 1, 2, 2, 57, 1, 4, 2, 4, 2, 2, 3, 3, 1, 30, 2, 3, 1, 11, 2, 57, 1, 4, 5, 1, 2, 4, 1, 20, 2,
  22, 6, 1, 1, 58, 1, 2, 1, 1, 4, 8, 1, 7, 2, 11, 2, 30, 1, 61, 1, 12, 1, 50, 1, 3, 1, 55, 1, 1, 3,
  5, 3, 1, 4, 7, 2, 11, 2, 29, 1, 58, 1, 2, 1, 6, 1, 5, 2, 20, 2, 28, 2, 57, 2, 4, 4, 8, 1, 20, 2,
  29, 1, 72, 1, 7, 3, 1, 1, 90, 1, 2, 7, 11, 9, 98, 1, 2, 9, 9, 1, 1, 7, 73, 2, 27, 1, 1, 1, 1, 1,
  55, 14, 1, 5, 1, 2, 5, 11, 1, 36, 9, 1, 102, 4, 1, 6, 1, 2, 2, 2, 25, 2, 4, 3, 16, 4, 13, 1, 2, 2,
  6, 1, 15, 1, 94, 1, 608, 3, 946, 3, 29, 2, 30, 2, 30, 2, 64, 2, 1, 7, 8, 1, 2, 11, 3, 1, 5, 1, 45,
  5, 51, 1, 65, 2, 34, 1, 118, 3, 4, 2, 9, 1, 6, 3, 219, 2, 2, 1, 58, 1, 1, 7, 1, 1, 1, 1, 2, 8, 6,
  10, 2, 1, 39, 1, 8, 46, 2, 12, 20, 4, 48, 1, 1, 5, 1, 1, 5, 1, 40, 9, 12, 2, 32, 4, 2, 2, 1, 3,
  56, 1, 1, 2, 3, 1, 1, 3, 58, 8, 2, 2, 64, 6, 82, 3, 1, 13, 1, 7, 4, 1, 6, 1, 3, 2, 50, 63, 13, 1,
  34, 101, 445, 1, 1, 3, 11, 3, 13, 3, 13, 3, 13, 2, 12, 5, 8, 2, 10, 1, 2, 1, 2, 5, 49, 5, 1, 10,
  1, 1, 13, 1, 16, 13, 51, 33, 2955, 2, 113, 3, 125, 1, 15, 1, 96, 32, 47, 1, 469, 1, 36, 4, 3, 5,
  5, 1, 93, 6, 93, 3, 28438, 1, 1250, 6, 270, 1, 98, 4, 1, 10, 1, 1, 28, 4, 80, 2, 14, 34, 78, 1,
  23, 3, 102, 4, 3, 2, 8, 1, 3, 1, 4, 1, 25, 2, 5, 1, 151, 2, 26, 18, 13, 1, 38, 8, 25, 11, 46, 3,
  48, 1, 2, 4, 2, 2, 17, 1, 21, 2, 66, 6, 2, 2, 2, 2, 12, 1, 8, 1, 35, 1, 11, 1, 51, 1, 1, 3, 2, 2,
  5, 2, 1, 1, 27, 1, 14, 2, 5, 2, 1, 1, 100, 5, 9, 3, 121, 1, 2, 1, 4, 1, 20272, 1, 147, 17, 573,
  16, 3, 1, 12, 16, 34, 1, 2, 1, 169, 1, 7, 1, 6, 1, 11, 1, 35, 1, 1, 1, 47, 1, 45, 2, 67, 1, 21, 3,
  513, 1, 226, 1, 149, 5, 1029, 6, 1, 42, 1, 9, 582, 3, 1, 2, 5, 4, 40, 3, 4, 1, 165, 2, 573, 4, 38,
  1, 26, 5, 1, 1, 315, 2, 24, 1, 52, 6, 70, 11, 49, 4, 123, 1, 54, 15, 41, 1, 2, 2, 10, 3, 49, 4, 2,
  2, 2, 1, 4, 1, 10, 1, 50, 3, 36, 5, 1, 8, 62, 1, 12, 2, 52, 9, 10, 4, 2, 1, 95, 3, 2, 1, 1, 2, 6,
  1, 2, 1, 157, 1, 3, 8, 21, 2, 57, 2, 3, 1, 37, 7, 3, 5, 70, 6, 13, 1, 1, 1, 1, 1, 14, 2, 85, 8, 2,
  3, 1, 1, 23, 1, 84, 6, 1, 1, 4, 2, 1, 2, 238, 4, 6, 2, 1, 2, 27, 2, 85, 8, 2, 1, 1, 2, 106, 1, 1,
  1, 2, 6, 1, 1, 101, 1, 1, 1, 2, 4, 1, 5, 259, 9, 1, 2, 256, 2, 1, 1, 4, 1, 144, 4, 2, 2, 4, 1, 32,
  10, 40, 6, 2, 4, 8, 1, 9, 6, 2, 3, 46, 13, 1, 2, 198, 1, 1, 3, 1, 1, 201, 7, 1, 6, 1, 1, 82, 22,
  2, 7, 1, 2, 1, 2, 122, 6, 3, 1, 1, 2, 1, 7, 1, 1, 72, 2, 3, 1, 1, 1, 65, 1, 281, 2, 11, 2, 52, 5,
  5, 1, 1, 1, 23, 1, 5333, 17, 6, 15, 11464, 12, 3, 3, 2496, 5, 59, 7, 9, 4, 508, 3, 40, 2, 482, 1,
  63, 17, 64, 2, 1, 2, 13, 2, 16380, 4, 1, 7, 1, 2, 3230, 2, 1, 4, 4700, 46, 2, 23, 544, 3, 9, 16,
  2, 7, 30, 4, 148, 3, 1979, 55, 4, 50, 8, 1, 14, 1, 22, 5, 1, 15, 1360, 7, 1, 17, 2, 7, 1, 2, 1, 5,
  5, 62, 33, 1, 160, 14, 368, 1, 61, 4, 507, 5, 254, 2, 243, 1, 2, 1, 7, 2, 5, 1, 9, 1, 464, 7, 109,
  8, 2735, 5, 789505, 1, 30, 96, 128, 240]

end TinyScript.Text
