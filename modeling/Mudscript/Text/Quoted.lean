import Mudscript.Text.Ranges

/-!
# Quoted text for diagnostics

A quoted text is meant to be read by people: control characters, marks that combine with the
character before them, fillers, unusual spaces and unassigned code points are written as escapes,
and every other character stands for itself. The halfwidth sound marks of katakana extend the
character before them too, but they are letters with a shape and a width of their own.
-/

namespace Mudscript.Text

/-- The characters beyond ASCII that a reader could not see standing alone: the general categories
C, Zl, Zp and Zs, the characters of the property Default_Ignorable_Code_Point, among them the
fillers of Hangul, and the marks, of category M, of the property Grapheme_Extend. -/
def invisibleRanges : Ranges := .ofRuns
  "[128]xc1[594][112]82647111k1[224]7[166]1[38]2[50]23[46]11121219r46hab11[46]lg1[101]8162214w211ut[89]b1e[43]973o4
    191317f1p511b5wg[42][57][55]111484137a2t1218222m1711343112622211d2134o5116422m1712121243o4117a2311c119131m171215
    34811231f24c718218222m17121531216222f2134ib116331432111232333c5112331331ll6318131n1g3134j312224a7a1b131n1a153221
    12n3124a13eb131[41]2112531312431a4q221i3o19112792677a23c[48]12b88d[37]211151o111a129125119a24wo2r11111e1[36]i151
    25[49]8161d[37][45]4161222p243g4d12261f1[40]11512[143]2[232]142711142[41]142x142711142f1[57]142[67]5t3q6[86]262
    [640]1s3[89]7idj329ied13f[52]217812b93a6a6b5a6[89]752y115[70]av44234216713[42]25b[44]4q6b3[57]223[56]11911286da6
    a6e[86][48]a4381t9c2w426[56]112311d[48]825f3[62]5[43]2bb1d1741613215[192][64][278]262[38]26281111111v2[53]1f1e26
    1j2319ho8[47]h22r1d3y[62][140]4[666]mbl[1812]2[377]325[45]11512[56]72fn9717171717171717x[94]yq1[89]c[214]qg1[41]
    6g1[86]4[101]5[43]1[51]1[42]1[86]9[48]1[29293]3[55]9[348]k[47]41aw2[80]268[221]kh13141p254a6[56]8[68]acod1[38]8p
    b1cu6[48]1242221d1b471p1[41]6222b318112a2w1[51]1132252111oh28b6262697171[60]4[117]12143a6[11172]cn4[49]4[2048]
    [6400][366]2[106][38]7c5511o151112121[650]wggamz1j14451[135]4[159]1u362626233717d22c1q1j121f2ey[123]534[45]3[88]
    1d31[47][45][131]t3[49]gr4[36]9u5[38]au1[37]4e[42][158]2a6[36]4[36]4[40]8[52]bc1f17121b1f17123[52]c[311]9ma8o61
    [42]19[69]6211[44]12312n1[72]89[48]j125x3r5r[38][56]4k2[47]f4131ta9797[64]w[37]6c9[54]3t2r5q74c7[80][73][55][51]
    d[51]7[42]ca6[38]8o82[208]v1[42]3122g689[39][40]8mb9mi44[38]skn911[54]f74u1221c[49]422214ep7a9[36]519i8z13b[52]9
    118421g1kbi1s324612[63]711141f1b6[47]13da8218222m171215311114222231c7sa11211[38]1112f112311312[39][56]82311l1113
    u[48]1261121121248a[166][47]1264212r[36][51]821124ba6dj[43]1112826a6ksr3112419n[185][47]9121[100][83]c82128121o1
    51264139a[70]82[42]8414r1a[40]624891623[46]d129d[73]7a[87]13111[88]yea691[38]e116at3wp17121[75]7121[38]l19a66121
    [37]4211117a6[44]4a[246]j249f1[36]823n[86]1f[50]d[923][102][111]15b[196][2636][99]d[1072]h6p[3995]5[583][6841]uc
    33a[1734][569]7v1a4[81]1a6u71a[48]7faa171l5j[432][58][198][91]5p2p[44][75]5[56]bd[64]4e59[7382][41]w[97][115]
    [8701]417121[291]f1t321e48[396][2308][107]5d397a2121[3936][253]3[436]6nfh[95][116][60][246]a[39]2[60]53m27u4[61]
    l[66]31[122]kckc[87]9p[135][85]1[71]122122241c11171[65]1428171s141511371[340]2[292]2[562][55]4[50]81e17[1140]v66
    [261][62][146][45]a72a42[320]ui[44]4a51[464]s4a[214]u2b41[192]v1312172592[224]714121f1[197]29[48][68]714a42[785]
    [68][76][61][194]41r1211211a141111614111111312112111111111121124171414111a1h53151h[52]2[270][44]4[100]cf2f1f1
    [37]a[174][56]td[44]4972e6[154][985]3h3d3[218]6c41fc4[56]8a6[40]8u2c42e9[39][344]8e2d3b3[57]114g2c4a7[147]1[103]
    [1029][42720]w[4382]2[5774]2[7473]f[622][2466][542][1506][4939]5[8490][904070]"

/-- Lower-case hexadecimal, without leading zeros. -/
def hexadecimal (n : Nat) : String := String.ofList (Nat.toDigits 16 n)

def quotedChar (c : Char) : String :=
  if c = '"' then "\\\""
  else if c = '\\' then "\\\\"
  else if c = '\n' then "\\n"
  else if c = '\r' then "\\r"
  else if c = '\t' then "\\t"
  else if c = Char.ofNat 0 then "\\0"
  else if c.toNat < 32 || c.toNat = 127 || (128 ≤ c.toNat && invisibleRanges.contains c) then
    "\\u\x7b" ++ hexadecimal c.toNat ++ "\x7d"
  else c.toString

def quoted (s : String) : String :=
  s.foldl (fun out c => out ++ quotedChar c) "\"" ++ "\""

end Mudscript.Text
