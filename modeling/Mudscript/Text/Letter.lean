import Mudscript.Text.Ranges

/-!
# Letters and digits

The characters of names. A letter is a character with the Unicode property Alphabetic, a numeral one
of the general categories Nd, Nl and No. ASCII is decided by rule and everything else by table.
-/

namespace Mudscript.Text

def alphabeticRanges : Ranges := .ofRuns
  "[170]1a1415n1v1[458]4ce57111[86]1ti1224116113111k1[83]1[139]8[166]1[38]216[41][39]e111212118r44tb5[56]17e[102]18
    4843a321g[48]d[101]ox92415o2jjp7b5o17718[42]ac376[76]1g134fdj18222m17113438222211814215c2a14316422m1712121245422
    2417411h6b319131m17121539131231f4l44318222m171215382222924215d1g216331432111232333c4533133161[40]d131n1g38131382
    131224s418131n1a15381313825314d3cd131[41]281313115475m6131i3o191127861118i2d[58]5761[51]211151o111j13251161e4w1
    [63]81[36]4j4g1[36][67][55]1125g[64]a42[38]11512[43]1[333]142711142[41]142x142711142f1[57]142[67][37]gg[86]263
    [620]2h1q5[75]3b7kblckcd1312c[52]2je141[67][89]7[43]5[70]av1c49nu25b[44]4q[54]s4[63]2k[50]1n2b3[49][52]1f18[51]
    [42]24a[44]1be[55]m3a[36]2b5[43]23[41]41612315[192]jyb[278]262[38]26281111111v2[53]1711331734264d5317[116]1d1gd
    [101]1412a1135611111141b245541h[41][813][52][1814][229]6432c[38]11512[56]71gn97171717171717171w[47]1[469]3p97525
    4[86]631[90]145[43]1[94]hw[48]g[512][6592][64][22157][67][46]2[269]3ga2k[47]583[113][39]92[103]2[82]kl1xo[52]c
    [68]11[44]63113ax5zdt3[51]1cf1gga51[55]9ein3[69]1111o32g24b6262697171[43]1e6[123]l[11172]cn4[49][8452][366]2
    [106][38]7c55c1d151112121[108]x[363]i[64]2[54][40]c[116]51[135][36]q6qb[89]36262623zc1q1j121f2ey[123][69][53]
    [267]t3[49][47]wdu5[43]5u2[36]4815[42][158]i[36]4[36]4[40]8[52]cb1f17121b1f17123[52]c[311]9ma8o61[42]19[69]6211
    [44]12312nan9v[65]j12amaq6q[38][56]62[64]41258131t[42]t3tz81sr[54]amajdi[110][73][55][51]d[51]d[40]ys315n[250]
    [42]1232g6[50]33ta18m[42]i[46]lrn9[70][43]5a[57]91dpn[51]h48z319[64]1492a111zi1y2164[62]711141f1a7[57]n418222m17
    1215382222316157sa11211[38]1a112114123111[44][66]1314k3u[66]2211[184][54]27p6y[63]1131[59][54]21[71]r2el7[185]
    [57][103][64]v82128121u122224[93]82[46]261112r[51]2ah[72]51i[73][103]8[88]xv91[45]1711[49]u2m1e[73]7121[44]31121
    31122o6121[37]121411n[44][260]n9h1[41]33[111]1[79][922][102][111]h[196][2636][97]f[1072]h6p[3995]5[583][6841]
    [47][1745][569]7vh[79]hui[48]g4vl5j[432][45][211][64]wp2p[44][75]4[57]7h[64]211c79[7382][41]w[97][115][8701]4171
    21[291]f1t321e48[396][2308][107]5d397a41[5985][85]1[71]122122241c11171[65]1428171s141511371[340]2p1p1v1p1v1p1v1p
    1v1p18[1844]v66[213]71h2712155[62]x1[112][45]a7g1[321]ui[44][484]s[228]u21[207]v1m82[224]714121f1[197][59][68]31
    31[1204]41r1211211a141111614111111312112111111111121124171414111a1h53151h[628]q6q6q[3702][42720]w[4382]2[5774]2
    [7473]f[622][2466][542][1506][4939]5[8490]"

def numericRanges : Ranges := .ofRuns
  "[178]25123[1441]a[134]a[198]a[412]a[118]a46[108]a[118]a[118]a26[110]d[115]a87[103]a[104]77j[109]a[96]a[118]a[70]
    k[268]a[70]a[719]k[881]3[239]a6ama[300]a[128]b[165]a6a[182]a[86]a[134]a6a[1046]1366a[198][51]25[726][60][78]m
    [630]u[1385]1[777]1p9e3[343]4[138]au81fwa[39]f[29536]a[188]a[320]6[154]a[38]a[198]ama[86]a[406]a[21270]a[493]
    [45]c[57]h2[341]r[36]4t181[134]5[202]a[942]8p7[39]9[75]5m6[160]22g2[46][64]9[52]2u3[75]5[104]8o8[41]7[330]6[48]a
    6a[278]v[158]a[42]4[112]7[134]u[128]a[60]a[144]a7k[251]a[342]a[118]a[374]a[102]a6k[76]c[420]j[93]a[662]a[86]t
    [227]a[70]a[54]a[358]a[102]l[1067][111][15553]a[2342]a[86]a[134]a17[526]a[262]n[349]3[23801]a[1478]kck[108]p
    [1109][50][2368]a[422]a[502]a[247]a[716]9[128]a[791][59]1314[76][45]1f[962]d[2787]a"

/-- An ASCII letter, or a character of the Unicode property Alphabetic. -/
def isLetter (c : Char) : Bool :=
  if c.toNat < 128 then c.isAlpha else alphabeticRanges.contains c

/-- An ASCII digit, or a character of one of the Unicode categories Nd, Nl and No. -/
def isNumeral (c : Char) : Bool :=
  if c.toNat < 128 then c.isDigit else numericRanges.contains c

def startsName (c : Char) : Bool := isLetter c || c = '_'

def continuesName (c : Char) : Bool := isLetter c || isNumeral c || c = '_'

end Mudscript.Text
